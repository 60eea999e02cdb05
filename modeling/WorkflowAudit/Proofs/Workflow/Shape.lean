import WorkflowAudit.Proofs.Table.Writing
import WorkflowAudit.Workflow

/-!
When a tree is a workflow. The shape of a workflow is said on its tree, and so are the nodes that offend
against it, in the order in which a reader meets them. Main statement: a tree is read exactly when it has
the shape, the first offence is reported when it has not, and the jobs that are read are the last
definitions of the distinct ids, with one step for each item.
-/

namespace WorkflowAudit

open Yaml (Scalar Node Entries SyntaxError)

/-! ### The shape -/

/-- A step is a mapping whose first `run` or whose first `uses` is a scalar. -/
def Step.IsShaped (n : Node) : Prop :=
  ∃ entries, n.entries? = some entries ∧
    ((∃ s, entries.get? "run" = some (.scalar s)) ∨ ∃ s, entries.get? "uses" = some (.scalar s))

/-- A job is a mapping whose first `steps` is missing, null or a sequence of steps. -/
def Job.IsShaped (n : Node) : Prop :=
  ∃ entries, n.entries? = some entries ∧
    (entries.get? "steps" = none ∨ (∃ p, entries.get? "steps" = some (.null p)) ∨
      ∃ p items, entries.get? "steps" = some (.sequence p items) ∧
        ∀ item ∈ items, Step.IsShaped item)

/-- A workflow is a mapping whose first `jobs` is a mapping of jobs. -/
def Workflow.IsShaped (root : Node) : Prop :=
  ∃ entries jobs defined, root.entries? = some entries ∧ entries.get? "jobs" = some jobs ∧
    jobs.entries? = some defined ∧ ∀ e ∈ defined, Job.IsShaped e.2

/-! ### Offences -/

/-- A node that is not what it should be, and what is wrong with it. -/
structure Offence where
  node : Node
  problem : String

/-- The error that reports an offence, at the position of its node. -/
def Offence.error (o : Offence) : SyntaxError :=
  .malformed o.node.position o.problem

/-- The offences of a step. -/
def Step.offences (n : Node) : List Offence :=
  match n.entries? with
  | none => [⟨n, "step must be a mapping"⟩]
  | some entries =>
    if (scalarAt? entries "run").isSome || (scalarAt? entries "uses").isSome then []
    else [⟨n, "step must have either `run` or `uses`"⟩]

/-- The offences of what stands under `steps`: the list itself, or its steps in order. -/
def Step.listOffences : Option Node → List Offence
  | none | some (.null _) => []
  | some (.sequence _ items) => items.flatMap Step.offences
  | some n => [⟨n, "`steps` must be a sequence"⟩]

/-- The offences of a job. -/
def Job.offences (n : Node) : List Offence :=
  match n.entries? with
  | none => [⟨n, "job must be a mapping"⟩]
  | some entries => Step.listOffences (entries.get? "steps")

/-- The offences of a workflow: the root, missing jobs at the root, the jobs as a whole, and then job by
    job and step by step, in the order of the document. -/
def Workflow.offences (root : Node) : List Offence :=
  match root.entries? with
  | none => [⟨root, "workflow must be a mapping"⟩]
  | some entries =>
    match entries.get? "jobs" with
    | none => [⟨root, "workflow has no `jobs`"⟩]
    | some jobs =>
      match jobs.entries? with
      | none => [⟨jobs, "jobs must be a mapping"⟩]
      | some defined => defined.flatMap fun e => Job.offences e.2

theorem scalarAt?_isSome_iff {entries : Entries} {key : String} :
    (scalarAt? entries key).isSome ↔ ∃ s, entries.get? key = some (.scalar s) := by
  rw [scalarAt?]
  cases entries.get? key with
  | none => simp
  | some n =>
    cases n with
    | scalar s => simp [Node.scalar?]
    | null | sequence | mapping => simp [Node.scalar?]

theorem Step.offences_eq_nil_iff {n : Node} : Step.offences n = [] ↔ Step.IsShaped n := by
  unfold Step.offences Step.IsShaped
  cases n.entries? with
  | none => simp
  | some entries =>
    simp only [Option.some.injEq, exists_eq_left', ite_eq_left_iff, List.cons_ne_nil, imp_false,
      not_not, Bool.or_eq_true, scalarAt?_isSome_iff]

theorem Step.listOffences_eq_nil_iff {steps : Option Node} : Step.listOffences steps = [] ↔
    steps = none ∨ (∃ p, steps = some (.null p)) ∨
      ∃ p items, steps = some (.sequence p items) ∧ ∀ item ∈ items, Step.IsShaped item := by
  cases steps with
  | none => simp [Step.listOffences]
  | some n =>
    cases n with
    | sequence p items =>
      simp [Step.listOffences, List.flatMap_eq_nil_iff, Step.offences_eq_nil_iff]
    | null | scalar | mapping => simp [Step.listOffences]

theorem Job.offences_eq_nil_iff {n : Node} : Job.offences n = [] ↔ Job.IsShaped n := by
  unfold Job.offences Job.IsShaped
  cases n.entries? with
  | none => simp
  | some entries => simp [Step.listOffences_eq_nil_iff]

theorem Workflow.offences_eq_nil_iff {root : Node} :
    Workflow.offences root = [] ↔ Workflow.IsShaped root := by
  unfold Workflow.offences Workflow.IsShaped
  cases root.entries? with
  | none => simp
  | some entries =>
    simp only [Option.some.injEq, exists_and_left, exists_eq_left']
    cases entries.get? "jobs" with
    | none => simp
    | some jobs =>
      simp only [Option.some.injEq, exists_eq_left']
      cases jobs.entries? with
      | none => simp
      | some defined => simp [List.flatMap_eq_nil_iff, Job.offences_eq_nil_iff]

/-! ### The first offence -/

/-- Reading gives a result if there are no offences, and else reports the first of them. -/
def FailsFirst {α : Type} (read : Except SyntaxError α) : List Offence → Prop
  | [] => ∃ a, read = .ok a
  | o :: _ => read = .error o.error

namespace FailsFirst

variable {α β : Type} {read : Except SyntaxError α} {offences others : List Offence}

theorem pure (a : α) : FailsFirst (.ok a) [] :=
  ⟨a, rfl⟩

/-- What is read in two steps fails where the first fails, and else where the second does. -/
theorem append (h : FailsFirst read offences) {whole : Except SyntaxError β}
    (herror : ∀ e, read = .error e → whole = .error e)
    (hok : ∀ a, read = .ok a → FailsFirst whole others) : FailsFirst whole (offences ++ others) := by
  cases offences with
  | nil =>
    obtain ⟨a, ha⟩ := h
    exact hok a ha
  | cons o offences => exact herror o.error h

theorem map (h : FailsFirst read offences) (f : α → β) : FailsFirst (read.map f) offences := by
  cases offences with
  | nil =>
    obtain ⟨a, rfl⟩ := h
    exact ⟨f a, rfl⟩
  | cons o offences =>
    have hread : read = .error o.error := h
    rw [hread]
    rfl

end FailsFirst

theorem expectMapping_eq (what : String) (n : Node) :
    expectMapping what n =
      match n.entries? with
      | none => .error (Offence.error ⟨n, what ++ " must be a mapping"⟩)
      | some entries => .ok entries := by
  cases n with
  | null | scalar | sequence | mapping => rfl

theorem Step.failsFirst_ofNode (n : Node) : FailsFirst (Step.ofNode n) (Step.offences n) := by
  unfold Step.ofNode Step.offences
  rw [expectMapping_eq]
  cases n.entries? with
  | none => exact rfl
  | some entries =>
    dsimp only
    unfold Step.bodyOf?
    cases scalarAt? entries "run" with
    | some script => exact ⟨_, rfl⟩
    | none =>
      cases scalarAt? entries "uses" with
      | some action => exact ⟨_, rfl⟩
      | none => exact rfl

theorem Step.failsFirst_ofNodes (items : List Node) :
    FailsFirst (Step.ofNodes items) (items.flatMap Step.offences) := by
  induction items with
  | nil => exact .pure []
  | cons item items ih =>
    rw [Step.ofNodes, List.flatMap_cons]
    refine (Step.failsFirst_ofNode item).append (fun e he => by rw [he]) fun step hstep => ?_
    rw [hstep]
    exact ih.map (step :: ·)

theorem Step.failsFirst_ofSteps? (steps : Option Node) :
    FailsFirst (Step.ofSteps? steps) (Step.listOffences steps) := by
  cases steps with
  | none => exact .pure []
  | some n =>
    cases n with
    | null p => exact .pure []
    | sequence p items => exact Step.failsFirst_ofNodes items
    | scalar | mapping => exact rfl

theorem Job.failsFirst_ofNode (id : Scalar) (n : Node) :
    FailsFirst (Job.ofNode id n) (Job.offences n) := by
  unfold Job.ofNode Job.offences
  rw [expectMapping_eq]
  cases n.entries? with
  | none => exact rfl
  | some entries =>
    dsimp only
    rw [← List.append_nil (Step.listOffences _)]
    refine (Step.failsFirst_ofSteps? (entries.get? "steps")).append (fun e he => by rw [he])
      fun steps hsteps => ?_
    rw [hsteps]
    exact .pure _

theorem Job.failsFirst_ofEntries (defined : Entries) :
    FailsFirst (Job.ofEntries defined) (defined.flatMap fun e => Job.offences e.2) := by
  induction defined with
  | nil => exact .pure []
  | cons e defined ih =>
    rw [Job.ofEntries, List.flatMap_cons]
    refine (Job.failsFirst_ofNode e.1 e.2).append (fun error he => by rw [he]) fun job hjob => ?_
    rw [hjob]
    exact ih.map ((e.1.value, job) :: ·)

theorem Workflow.failsFirst_ofNode (root : Node) :
    FailsFirst (Workflow.ofNode root) (Workflow.offences root) := by
  unfold Workflow.ofNode Workflow.offences
  rw [expectMapping_eq]
  cases root.entries? with
  | none => exact rfl
  | some entries =>
    dsimp only
    cases entries.get? "jobs" with
    | none => exact rfl
    | some jobs =>
      dsimp only
      rw [expectMapping_eq]
      cases jobs.entries? with
      | none => exact rfl
      | some defined => exact (Job.failsFirst_ofEntries defined).map _

/-! ### What is read -/

theorem Step.forall₂_of_ofNodes {items : List Node} {steps : List Step}
    (h : Step.ofNodes items = .ok steps) :
    List.Forall₂ (fun item step => Step.ofNode item = .ok step) items steps := by
  induction items generalizing steps with
  | nil =>
    cases h
    exact .nil
  | cons item items ih =>
    rw [Step.ofNodes] at h
    cases hstep : Step.ofNode item with
    | error e => rw [hstep] at h; cases h
    | ok step =>
      cases hrest : Step.ofNodes items with
      | error e => rw [hstep, hrest] at h; cases h
      | ok rest =>
        rw [hstep, hrest] at h
        cases h
        exact .cons hstep (ih hrest)

theorem Job.forall₂_of_ofEntries {defined : Entries} {jobs : List (String × Job)}
    (h : Job.ofEntries defined = .ok jobs) :
    List.Forall₂ (fun e job => job.1 = e.1.value ∧ Job.ofNode e.1 e.2 = .ok job.2) defined jobs := by
  induction defined generalizing jobs with
  | nil =>
    cases h
    exact .nil
  | cons e defined ih =>
    rw [Job.ofEntries] at h
    cases hjob : Job.ofNode e.1 e.2 with
    | error error => rw [hjob] at h; cases h
    | ok job =>
      cases hrest : Job.ofEntries defined with
      | error error => rw [hjob, hrest] at h; cases h
      | ok rest =>
        rw [hjob, hrest] at h
        cases h
        exact .cons ⟨rfl, hjob⟩ (ih hrest)

/-- The items of the first `steps` of a job. -/
def Job.stepItems (n : Node) : List Node :=
  ((n.get? "steps").bind Node.items?).getD []

/-- The definition of a job is read: its id and its place are kept, and each item is one step. -/
structure Job.Defines (id : Scalar) (n : Node) (job : Job) : Prop where
  read : Job.ofNode id n = .ok job
  id_eq : job.id = id
  position_eq : job.position = n.position
  steps : List.Forall₂ (fun item step => Step.ofNode item = .ok step) (Job.stepItems n) job.steps

theorem Job.defines_of_ofNode {id : Scalar} {n : Node} {job : Job} (h : Job.ofNode id n = .ok job) :
    Job.Defines id n job := by
  have hread := h
  unfold Job.ofNode at h
  rw [expectMapping_eq] at h
  cases hentries : n.entries? with
  | none => rw [hentries] at h; cases h
  | some entries =>
    rw [hentries] at h
    dsimp only at h
    cases hsteps : Step.ofSteps? (entries.get? "steps") with
    | error e => rw [hsteps] at h; cases h
    | ok steps =>
      rw [hsteps] at h
      cases h
      refine ⟨hread, rfl, rfl, ?_⟩
      rw [Job.stepItems, Node.get?, hentries, Option.bind_some]
      cases hlist : entries.get? "steps" with
      | none =>
        rw [hlist] at hsteps
        cases hsteps
        exact .nil
      | some list =>
        rw [hlist] at hsteps
        cases list with
        | null p => cases hsteps; exact .nil
        | sequence p items => exact Step.forall₂_of_ofNodes hsteps
        | scalar | mapping => cases hsteps

theorem Job.ids_eq {defined : Entries} {jobs : List (String × Job)}
    (h : List.Forall₂ (fun e job => job.1 = e.1.value ∧ Job.ofNode e.1 e.2 = .ok job.2) defined jobs) :
    jobs.map Prod.fst = defined.map (·.1.value) := by
  induction h with
  | nil => rfl
  | cons hjob _ ih => rw [List.map_cons, List.map_cons, hjob.1, ih]

/-- The first job with an id comes from the first definition with that id. -/
theorem Job.exists_definition {defined : Entries} {jobs : List (String × Job)}
    (h : List.Forall₂ (fun e job => job.1 = e.1.value ∧ Job.ofNode e.1 e.2 = .ok job.2) defined jobs)
    {id : String} {job : Job} (hjob : jobs.lookup id = some job) :
    ∃ key n, defined.find? (·.1.value = id) = some (key, n) ∧ Job.Defines key n job := by
  induction h with
  | nil => cases hjob
  | @cons e first defined jobs hfirst _ ih =>
    rw [List.lookup_cons] at hjob
    rw [List.find?_cons]
    by_cases hid : first.1 = id
    · rw [hid, beq_self_eq_true] at hjob
      cases hjob
      rw [← hid, hfirst.1]
      exact ⟨e.1, e.2, by simp, Job.defines_of_ofNode hfirst.2⟩
    · rw [beq_false_of_ne (Ne.symm hid)] at hjob
      rw [hfirst.1] at hid
      simpa [hid] using ih hjob

theorem Workflow.jobs_of_ofNode {root : Node} {w : Workflow} (h : Workflow.ofNode root = .ok w) :
    ∃ defined jobs, (root.get? "jobs").bind Node.entries? = some defined ∧
      Job.ofEntries defined = .ok jobs ∧ w.jobs = Table.ofList jobs := by
  unfold Workflow.ofNode at h
  rw [expectMapping_eq] at h
  cases hentries : root.entries? with
  | none => rw [hentries] at h; cases h
  | some entries =>
    rw [hentries] at h
    dsimp only at h
    cases hjobs : entries.get? "jobs" with
    | none => rw [hjobs] at h; cases h
    | some node =>
      rw [hjobs] at h
      dsimp only at h
      rw [expectMapping_eq] at h
      cases hdefined : node.entries? with
      | none => rw [hdefined] at h; cases h
      | some defined =>
        rw [hdefined] at h
        dsimp only at h
        cases hread : Job.ofEntries defined with
        | error e => rw [hread] at h; cases h
        | ok jobs =>
          rw [hread] at h
          cases h
          refine ⟨defined, jobs, ?_, hread, rfl⟩
          rw [Node.get?, hentries, Option.bind_some, hjobs, Option.bind_some, hdefined]

/-- A tree is read as a workflow exactly when it has the shape of one. If it has not, the error is at the
    position of the first node that offends: the root, for itself or for its missing jobs, the jobs, and
    then job by job and step by step. If it has, the ids of the jobs are the distinct ones of the
    document, each where it first occurs; a job is what its last definition says, and has one step for
    each item, in order. -/
theorem workflow_read_iff_shaped (root : Node) :
    ((∃ w, Workflow.ofNode root = .ok w) ↔ Workflow.IsShaped root) ∧
    (¬Workflow.IsShaped root → ∃ first others, Workflow.offences root = first :: others ∧
      Workflow.ofNode root = .error (.malformed first.node.position first.problem)) ∧
    ∀ w, Workflow.ofNode root = .ok w →
      ∃ defined, (root.get? "jobs").bind Node.entries? = some defined ∧
        w.jobs.map Prod.fst = (defined.map (·.1.value)).eraseDups ∧
        ∀ id job, (id, job) ∈ w.jobs → ∃ key n,
          defined.reverse.find? (·.1.value = id) = some (key, n) ∧ Job.Defines key n job := by
  have hfirst := Workflow.failsFirst_ofNode root
  rw [← Workflow.offences_eq_nil_iff]
  refine ⟨?_, ?_, ?_⟩
  · cases hoffences : Workflow.offences root with
    | nil =>
      rw [hoffences] at hfirst
      exact iff_of_true hfirst rfl
    | cons first others =>
      rw [hoffences] at hfirst
      refine iff_of_false ?_ (List.cons_ne_nil _ _)
      rintro ⟨w, hw⟩
      rw [show Workflow.ofNode root = .error first.error from hfirst] at hw
      cases hw
  · intro hne
    obtain ⟨first, others, hoffences⟩ := List.exists_cons_of_ne_nil hne
    rw [hoffences] at hfirst
    exact ⟨first, others, hoffences, hfirst⟩
  · intro w hw
    obtain ⟨defined, jobs, hdefined, hread, hjobs⟩ := Workflow.jobs_of_ofNode hw
    have hall := Job.forall₂_of_ofEntries hread
    refine ⟨defined, hdefined, ?_, fun id job hjob => ?_⟩
    · rw [hjobs, Table.keys_ofList, Job.ids_eq hall]
    · rw [hjobs] at hjob
      exact Job.exists_definition (List.rel_reverse hall)
        (Table.lookup_reverse_of_mem_ofList hjob)

/-- The scalar with a text on a line. -/
def wordOn (line : Nat) (value : String) : Scalar :=
  ⟨value, ⟨line, 1⟩, .plain, [⟨0, ⟨line, 1⟩⟩]⟩

/-- A step on a line that runs a script, after a `run` that does not count. -/
def stepOn (line : Nat) : Node :=
  .mapping ⟨line, 1⟩ [(wordOn line "run", .null ⟨line, 2⟩), (wordOn line "run", .scalar (wordOn line "x")),
    (wordOn line "uses", .scalar (wordOn line "owner/action"))]

/-- Two jobs of which the first is defined a second time, with two steps. -/
def twiceDefined : Node :=
  .mapping ⟨1, 1⟩ [(wordOn 1 "jobs", .mapping ⟨2, 1⟩
    [(wordOn 2 "a", .mapping ⟨3, 1⟩ []),
      (wordOn 4 "b", .mapping ⟨5, 1⟩ [(wordOn 5 "steps", .null ⟨5, 7⟩)]),
      (wordOn 6 "a", .mapping ⟨7, 1⟩ [(wordOn 7 "steps", .sequence ⟨8, 1⟩ [stepOn 8, stepOn 9])])])]

/-- A job with a step that does nothing, before one that is no mapping. -/
def twiceFaulty : Node :=
  .mapping ⟨1, 1⟩ [(wordOn 1 "jobs", .mapping ⟨2, 1⟩
    [(wordOn 2 "a", .mapping ⟨3, 1⟩ [(wordOn 3 "steps", .sequence ⟨4, 1⟩
        [stepOn 4, .mapping ⟨5, 3⟩ [(wordOn 5 "run", .null ⟨5, 5⟩)]])]),
      (wordOn 6 "b", .null ⟨6, 2⟩)])]

/-- The jobs of the first tree are read, and the step of the second is reported. -/
theorem twiceDefined_read_twiceFaulty_reported :
    (∃ w, Workflow.ofNode twiceDefined = .ok w ∧ w.jobs.map Prod.fst = ["a", "b"] ∧
      ∃ job, ("a", job) ∈ w.jobs ∧ job.id = wordOn 6 "a" ∧ job.position = ⟨7, 1⟩ ∧
        job.steps.length = 2) ∧
    ¬Workflow.IsShaped twiceFaulty ∧
    Workflow.ofNode twiceFaulty =
      .error (.malformed ⟨5, 3⟩ "step must have either `run` or `uses`") := by
  constructor
  · have hshaped : Workflow.IsShaped twiceDefined := Workflow.offences_eq_nil_iff.1 rfl
    obtain ⟨hread, -, hjobs⟩ := workflow_read_iff_shaped twiceDefined
    obtain ⟨w, hw⟩ := hread.2 hshaped
    obtain ⟨defined, hdefined, hids, hdefines⟩ := hjobs w hw
    cases hdefined
    have hids : w.jobs.map Prod.fst = ["a", "b"] := hids
    obtain ⟨⟨id, job⟩, hjob, rfl⟩ : ∃ e ∈ w.jobs, e.1 = "a" :=
      List.mem_map.1 (hids ▸ List.mem_cons_self ..)
    obtain ⟨key, n, hlast, hdef⟩ := hdefines "a" job hjob
    cases hlast
    exact ⟨w, hw, hids, job, hjob, hdef.id_eq, hdef.position_eq, hdef.steps.length_eq.symm⟩
  · have hfaulty : ¬Workflow.IsShaped twiceFaulty :=
      mt Workflow.offences_eq_nil_iff.2 (List.cons_ne_nil _ _)
    obtain ⟨first, others, hoffences, herror⟩ := (workflow_read_iff_shaped twiceFaulty).2.1 hfaulty
    cases hoffences
    exact ⟨hfaulty, herror⟩

end WorkflowAudit
