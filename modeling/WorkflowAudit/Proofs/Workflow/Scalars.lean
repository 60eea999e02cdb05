import WorkflowAudit.Proofs.Table.Writing
import WorkflowAudit.Proofs.Yaml.Scalars
import WorkflowAudit.Rule.Injection

/-!
The scalars of a workflow come from its document. Main statements: every scalar by which a rule places
what it reports stands in the document that the workflow was read from, and so does every scalar in
which a rule looks for text.
-/

namespace WorkflowAudit

open Yaml (Scalar Node Entries)

variable {P : Scalar → Prop}

/-! ### Entries -/

theorem all_get? {entries : Entries} (h : entries.All P) {key : String} {n : Node}
    (hn : entries.get? key = some n) : n.All P := by
  obtain ⟨e, he, rfl⟩ := Option.map_eq_some_iff.1 hn
  exact (h e (List.mem_of_find?_eq_some he)).2

theorem scalar?_eq_some {n : Node} {s : Scalar} (h : n.scalar? = some s) : n = .scalar s := by
  cases n with
  | scalar s' => cases h; rfl
  | _ => cases h

theorem of_scalar? {n : Node} (h : n.All P) {s : Scalar} (hs : n.scalar? = some s) : P s := by
  rw [scalar?_eq_some hs] at h
  cases h with
  | scalar h => exact h

theorem of_scalarAt? {entries : Entries} (h : entries.All P) {key : String} {s : Scalar}
    (hs : scalarAt? entries key = some s) : P s := by
  obtain ⟨n, hn, hs⟩ := Option.bind_eq_some_iff.1 hs
  exact of_scalar? (all_get? h hn) hs

theorem of_expectMapping {what : String} {n : Node} (h : n.All P) {entries : Entries}
    (he : expectMapping what n = .ok entries) : entries.All P := by
  unfold expectMapping at he
  split at he
  · cases he; exact h.entries
  · cases he

theorem all_of_entriesAt {entries found : Entries} (h : entries.All P) {key : String}
    (hfound : (entries.get? key).bind Node.entries? = some found) : found.All P := by
  obtain ⟨n, hn, hentries⟩ := Option.bind_eq_some_iff.1 hfound
  exact (all_get? h hn).entries? hentries

theorem all_entriesAt_getD {entries : Entries} (h : entries.All P) (key : String) :
    Entries.All P (((entries.get? key).bind Node.entries?).getD []) := by
  cases hfound : (entries.get? key).bind Node.entries? with
  | none => exact List.forall_mem_nil _
  | some found => exact all_of_entriesAt h hfound

theorem all_of_mem_items {n m : Node} (h : n.All P) (hm : m ∈ n.items?.getD []) : m.All P := by
  cases h with
  | null | scalar | mapping => cases hm
  | sequence p hitems => exact hitems m hm

theorem of_mem_scalarsOf {n : Node} (h : n.All P) : ∀ x ∈ scalarsOf n, P x := by
  cases h with
  | null p => exact List.forall_mem_nil _
  | scalar h => exact List.forall_mem_singleton.2 h
  | sequence p hitems =>
    intro x hx
    obtain ⟨item, hitem, hscalar⟩ := List.mem_filterMap.1 hx
    exact of_scalar? (hitems item hitem) hscalar
  | mapping p hkeys hvalues => exact List.forall_mem_nil _

theorem of_mem_env {entries : Entries} (h : entries.All P) :
    ∀ x ∈ (EnvVar.ofNode? (entries.get? "env")).map (·.name), P x := by
  intro x hx
  obtain ⟨v, hv, rfl⟩ := List.mem_map.1 hx
  obtain ⟨e, he, rfl⟩ := List.mem_map.1 hv
  exact (all_entriesAt_getD h "env" e he).1

/-! ### Steps -/

/-- The scalars of a step in which rules look for text. -/
def Step.searched (s : Step) : List Scalar :=
  s.condition.toList ++ Rule.injectionPoints false s

theorem Step.searched_usesBody {action : Scalar} (haction : P action) {inputs : Entries}
    (hinputs : inputs.All P) (s : Step) (hbody : s.body = Step.usesBody action inputs) :
    ∀ x ∈ Rule.injectionPoints false s, P x := by
  let given := inputs.filterMap fun e => e.2.scalar?.map fun s => (e.1, s)
  have hgiven : ∀ e ∈ given, P e.2 := fun e he => by
    obtain ⟨⟨k, v⟩, hmem, heq⟩ := List.mem_filterMap.1 he
    obtain ⟨s, hs, rfl⟩ := Option.map_eq_some_iff.1 heq
    exact of_scalar? (hinputs _ hmem).2 hs
  have hlast (name : String) (x : Scalar)
      (hx : x ∈ (((given.filter (·.1.value = name)).getLast?).map (·.2)).toList) : P x := by
    obtain ⟨e, he, rfl⟩ := Option.map_eq_some_iff.1 (Option.mem_toList.1 hx)
    exact hgiven e (List.mem_of_mem_filter (List.mem_of_getLast? he))
  intro x hx
  rw [Rule.injectionPoints, hbody] at hx
  simp only [Step.usesBody, Bool.false_eq_true, if_false, List.cons_append, List.mem_cons,
    List.mem_append, List.mem_map] at hx
  rcases hx with rfl | (⟨e, he, rfl⟩ | hx) | hx
  · exact haction
  · obtain ⟨⟨k, v⟩, hmem, rfl⟩ := List.mem_map.1 (Table.mem_of_mem_ofList he)
    exact hgiven _ (List.mem_of_mem_filter hmem)
  · exact hlast _ x hx
  · exact hlast _ x hx

theorem Step.searched_bodyOf? {entries : Entries} (h : entries.All P) (s : Step)
    (hbody : Step.bodyOf? entries = some s.body) : ∀ x ∈ Rule.injectionPoints false s, P x := by
  unfold Step.bodyOf? at hbody
  split at hbody
  · rename_i script hscript
    cases hbody' : s.body with
    | uses action inputs entrypoint args => rw [hbody'] at hbody; cases hbody
    | run script' workingDirectory shell =>
      rw [hbody'] at hbody
      cases hbody
      rw [Rule.injectionPoints, hbody']
      refine List.forall_mem_cons.2 ⟨of_scalarAt? h hscript, fun x hx => ?_⟩
      exact of_scalarAt? h (Option.mem_toList.1 hx)
  · obtain ⟨action, haction, heq⟩ := Option.map_eq_some_iff.1 hbody
    exact Step.searched_usesBody (of_scalarAt? h haction) (all_entriesAt_getD h "with") s heq.symm

/-- The scalars of a step by which reports are placed. -/
def Step.placing (s : Step) : List Scalar :=
  s.searched ++ s.env.map (·.name)

theorem Step.placing_ofNode {n : Node} (h : n.All P) {s : Step} (hs : Step.ofNode n = .ok s) :
    ∀ x ∈ s.placing, P x := by
  unfold Step.ofNode at hs
  split at hs
  · cases hs
  · rename_i entries hentries
    have hall := of_expectMapping h hentries
    split at hs
    · cases hs
    · rename_i body hbody
      cases hs
      refine List.forall_mem_append.2 ⟨List.forall_mem_append.2 ⟨fun x hx => ?_,
        Step.searched_bodyOf? hall _ hbody⟩, of_mem_env hall⟩
      exact of_scalarAt? hall (Option.mem_toList.1 hx)

/-- Steps are read from nodes of their list. -/
theorem Step.ofNode_of_mem {nodes : List Node} {steps : List Step}
    (h : Step.ofNodes nodes = .ok steps) : ∀ s ∈ steps, ∃ n ∈ nodes, Step.ofNode n = .ok s := by
  induction nodes generalizing steps with
  | nil => cases h; exact List.forall_mem_nil _
  | cons n nodes ih =>
    rw [Step.ofNodes] at h
    cases hstep : Step.ofNode n with
    | error e => rw [hstep] at h; cases h
    | ok step =>
      rw [hstep] at h
      cases hrest : Step.ofNodes nodes with
      | error e => rw [hrest] at h; cases h
      | ok rest =>
        rw [hrest] at h
        cases h
        refine List.forall_mem_cons.2 ⟨⟨n, List.mem_cons_self .., hstep⟩, fun s hs => ?_⟩
        obtain ⟨m, hm, hread⟩ := ih hrest s hs
        exact ⟨m, List.mem_cons_of_mem _ hm, hread⟩

theorem Step.placing_ofSteps? {n : Option Node} (h : ∀ x ∈ n, x.All P) {steps : List Step}
    (hs : Step.ofSteps? n = .ok steps) : ∀ s ∈ steps, ∀ x ∈ s.placing, P x := by
  unfold Step.ofSteps? at hs
  split at hs
  · cases hs; exact List.forall_mem_nil _
  · cases hs; exact List.forall_mem_nil _
  · rename_i items
    cases h _ rfl with
    | sequence _ hitems =>
      intro s hmem
      obtain ⟨n, hn, hread⟩ := Step.ofNode_of_mem hs s hmem
      exact Step.placing_ofNode (hitems n hn) hread
  · cases hs

/-! ### Jobs -/

/-- The scalars of a job in which rules look for text. -/
def Job.searched (j : Job) : List Scalar :=
  j.condition.toList ++ j.steps.flatMap Step.searched

/-- The values of all properties of a matrix. -/
def Matrix.values (m : Matrix) : List Scalar :=
  m.rows.flatMap (·.2) ++ m.further.flatMap fun combination => combination.map (·.2)

/-- The scalars that give the labels of a job's runner. -/
def Job.labels (j : Job) : List Scalar :=
  j.runsOn ++ j.matrix.toList.flatMap Matrix.values

/-- The password of a container. -/
def Container.passwords (c : Container) : List Scalar :=
  (c.credentials.bind (·.password)).toList

/-- The containers of a job. -/
def Job.containers (j : Job) : List Container :=
  j.container.toList ++ j.services.map (·.2)

/-- The scalars of a job, those of its steps aside, by which reports are placed. -/
def Job.placing (j : Job) : List Scalar :=
  j.condition.toList ++ j.labels ++ j.env.map (·.name) ++ j.containers.flatMap Container.passwords

theorem Matrix.values_addEntry {m : Matrix} (h : ∀ x ∈ m.values, P x) {e : Scalar × Node}
    (he : e.2.All P) : ∀ x ∈ (m.addEntry e).values, P x := by
  obtain ⟨hrows, hfurther⟩ := List.forall_mem_append.1 h
  unfold Matrix.addEntry
  dsimp only
  split
  · refine List.forall_mem_append.2 ⟨hrows, fun x hx => ?_⟩
    obtain ⟨combination, hcombination, hx⟩ := List.mem_flatMap.1 hx
    obtain ⟨entries, hentries, rfl⟩ := List.mem_map.1 hcombination
    obtain ⟨n, hn, hentries⟩ := List.mem_filterMap.1 hentries
    obtain ⟨pair, hpair, rfl⟩ := List.mem_map.1 hx
    obtain ⟨entry, hentry, hscalar⟩ := List.mem_filterMap.1 (Table.mem_of_mem_ofList hpair)
    obtain ⟨s, hs, rfl⟩ := Option.map_eq_some_iff.1 hscalar
    exact of_scalar? ((all_of_mem_items he hn).entries? hentries entry hentry).2 hs
  · split
    · exact h
    · refine List.forall_mem_append.2 ⟨fun x hx => ?_, hfurther⟩
      obtain ⟨row, hrow, hx⟩ := List.mem_flatMap.1 hx
      rcases Table.mem_of_mem_insert hrow with hrow | rfl
      · exact hrows x (List.mem_flatMap.2 ⟨row, hrow, hx⟩)
      · exact of_mem_scalarsOf he x hx

theorem Matrix.values_ofNode {n : Node} (h : n.All P) : ∀ x ∈ (Matrix.ofNode n).values, P x := by
  cases h with
  | null p | scalar h | sequence p hitems => exact List.forall_mem_nil _
  | mapping p hkeys hvalues =>
    rename_i entries
    rw [Matrix.ofNode]
    have hempty : ∀ x ∈ (⟨p, [], [], none⟩ : Matrix).values, P x := List.forall_mem_nil _
    generalize (⟨p, [], [], none⟩ : Matrix) = m at hempty
    clear hkeys
    induction entries generalizing m with
    | nil => exact hempty
    | cons e entries ih =>
      obtain ⟨he, hrest⟩ := List.forall_mem_cons.1 hvalues
      exact ih hrest _ (Matrix.values_addEntry hempty he)

theorem Container.passwords_ofNode {n : Node} (h : n.All P) :
    ∀ x ∈ (Container.ofNode n).passwords, P x := by
  cases n with
  | null p => exact List.forall_mem_nil _
  | scalar s => exact List.forall_mem_nil _
  | sequence p items => exact List.forall_mem_nil _
  | mapping p entries =>
    intro x hx
    obtain ⟨c, hc, hpassword⟩ := Option.bind_eq_some_iff.1 (Option.mem_toList.1 hx)
    obtain ⟨found, hfound, rfl⟩ := Option.map_eq_some_iff.1 hc
    exact of_scalarAt? (all_of_entriesAt h.entries hfound) hpassword

theorem of_mem_runnerLabels {n : Option Node} (h : ∀ x ∈ n, x.All P) : ∀ x ∈ runnerLabels n, P x := by
  unfold runnerLabels
  split
  · rename_i p entries
    have hentries := (h _ rfl).entries
    cases hfound : Entries.get? entries "labels" with
    | none => exact List.forall_mem_nil _
    | some labels => exact of_mem_scalarsOf (all_get? hentries hfound)
  · rename_i n _
    exact of_mem_scalarsOf (h n rfl)
  · exact List.forall_mem_nil _

theorem Job.placing_ofNode {id : Scalar} {n : Node} (h : n.All P) {j : Job}
    (hj : Job.ofNode id n = .ok j) :
    (∀ x ∈ j.placing, P x) ∧ ∀ s ∈ j.steps, ∀ x ∈ s.placing, P x := by
  unfold Job.ofNode at hj
  split at hj
  · cases hj
  · rename_i entries hentries
    have hall := of_expectMapping h hentries
    split at hj
    · cases hj
    · rename_i steps hsteps
      cases hj
      refine ⟨?_, Step.placing_ofSteps? (fun n hn => all_get? hall hn) hsteps⟩
      refine List.forall_mem_append.2 ⟨List.forall_mem_append.2 ⟨List.forall_mem_append.2
        ⟨fun x hx => of_scalarAt? hall (Option.mem_toList.1 hx), List.forall_mem_append.2
          ⟨of_mem_runnerLabels fun n hn => all_get? hall hn, fun x hx => ?_⟩⟩, of_mem_env hall⟩,
        fun x hx => ?_⟩
      -- the values of the matrix, below `strategy`
      · obtain ⟨m, hm, hx⟩ := List.mem_flatMap.1 hx
        obtain ⟨node, hnode, rfl⟩ := Option.map_eq_some_iff.1 (Option.mem_toList.1 hm)
        obtain ⟨strategy, hstrategy, hnode⟩ := Option.bind_eq_some_iff.1 hnode
        obtain ⟨found, hfound, hnode⟩ := Option.bind_eq_some_iff.1 hnode
        exact Matrix.values_ofNode (all_get? ((all_get? hall hstrategy).entries? hfound) hnode) x hx
      -- the passwords of the container and of the services
      · obtain ⟨c, hc, hx⟩ := List.mem_flatMap.1 hx
        rcases List.mem_append.1 hc with hc | hc
        · obtain ⟨node, hnode, rfl⟩ := Option.map_eq_some_iff.1 (Option.mem_toList.1 hc)
          exact Container.passwords_ofNode (all_get? hall hnode) x hx
        · obtain ⟨service, hservice, rfl⟩ := List.mem_map.1 hc
          obtain ⟨e, he, rfl⟩ := List.mem_map.1 (Table.mem_of_mem_ofList hservice)
          exact Container.passwords_ofNode (all_entriesAt_getD hall "services" e he).2 x hx

/-- Jobs are read from entries of their mapping. -/
theorem Job.ofNode_of_mem {entries : Entries} {jobs : List (String × Job)}
    (h : Job.ofEntries entries = .ok jobs) :
    ∀ j ∈ jobs, ∃ e ∈ entries, Job.ofNode e.1 e.2 = .ok j.2 := by
  induction entries generalizing jobs with
  | nil => cases h; exact List.forall_mem_nil _
  | cons e entries ih =>
    obtain ⟨id, n⟩ := e
    rw [Job.ofEntries] at h
    cases hjob : Job.ofNode id n with
    | error e => rw [hjob] at h; cases h
    | ok job =>
      rw [hjob] at h
      cases hrest : Job.ofEntries entries with
      | error e => rw [hrest] at h; cases h
      | ok rest =>
        rw [hrest] at h
        cases h
        refine List.forall_mem_cons.2 ⟨⟨(id, n), List.mem_cons_self .., hjob⟩, fun j hj => ?_⟩
        obtain ⟨e, he, hread⟩ := ih hrest j hj
        exact ⟨e, List.mem_cons_of_mem _ he, hread⟩

/-! ### Workflows -/

/-- The scalars of a workflow in which rules look for text. -/
def Workflow.searched (w : Workflow) : List Scalar :=
  w.jobs.flatMap fun (_, j) => j.searched

/-- The scalars of a workflow, those of its jobs aside, by which reports are placed. -/
def Workflow.placing (w : Workflow) : List Scalar :=
  w.name.toList ++ w.env.map (·.name)

/-- The property holds of all scalars of a workflow by which reports are placed. -/
def Workflow.AllPlacing (P : Scalar → Prop) (w : Workflow) : Prop :=
  (∀ x ∈ w.placing, P x) ∧
    ∀ j ∈ w.jobs, (∀ x ∈ j.2.placing, P x) ∧ ∀ s ∈ j.2.steps, ∀ x ∈ s.placing, P x

theorem Workflow.allPlacing_ofNode {root : Node} (h : root.All P) {w : Workflow}
    (hw : Workflow.ofNode root = .ok w) : w.AllPlacing P := by
  unfold Workflow.ofNode at hw
  split at hw
  · cases hw
  · rename_i entries hentries
    have hall := of_expectMapping h hentries
    split at hw
    · cases hw
    · rename_i node hnode
      split at hw
      · cases hw
      · rename_i jobEntries hjobEntries
        have hjobs := of_expectMapping (all_get? hall hnode) hjobEntries
        cases hread : Job.ofEntries jobEntries with
        | error e => rw [hread] at hw; cases hw
        | ok jobs =>
          rw [hread] at hw
          cases hw
          refine ⟨List.forall_mem_append.2 ⟨fun x hx => ?_, of_mem_env hall⟩, fun j hj => ?_⟩
          · exact of_scalarAt? hall (Option.mem_toList.1 hx)
          · obtain ⟨e, he, hjob⟩ := Job.ofNode_of_mem hread j (Table.mem_of_mem_ofList hj)
            exact Job.placing_ofNode (hjobs e he).2 hjob

/-- Every scalar by which a report is placed stands in the text of the workflow. -/
theorem Workflow.placing_standsIn {text : String} {w : Workflow}
    (h : Workflow.parse text = .ok w) : w.AllPlacing (Scalar.StandsIn text.toList) := by
  unfold Workflow.parse at h
  split at h
  · cases h
  · rename_i root hroot
    exact Workflow.allPlacing_ofNode (Node.parse_all hroot) h

/-- Every scalar in which a rule looks for text stands in the text of the workflow. -/
theorem Workflow.searched_standsIn {text : String} {w : Workflow}
    (h : Workflow.parse text = .ok w) : ∀ s ∈ w.searched, s.StandsIn text.toList := by
  intro x hx
  obtain ⟨j, hj, hx⟩ := List.mem_flatMap.1 hx
  obtain ⟨hjob, hsteps⟩ := (Workflow.placing_standsIn h).2 j hj
  rcases List.mem_append.1 hx with hx | hx
  · exact hjob x (by simp [Job.placing, hx])
  · obtain ⟨s, hs, hx⟩ := List.mem_flatMap.1 hx
    exact hsteps s hs x (List.mem_append_left _ hx)

end WorkflowAudit
