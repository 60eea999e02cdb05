import WorkflowAudit.Dispatch
import WorkflowAudit.Proofs.Scan.Runs
import WorkflowAudit.Proofs.Walk.Dialogs
import WorkflowAudit.Rule.Owner

/-!
Rules do not interfere with each other. All rules watch one walk, part by part; the invariant is that
each of them is, after any parts of the walk, where it would be had it watched them alone. Main
statement: the walk with many rules is the walks with each of them in turn, and the walk with one rule
tells it of the workflow, of each job and its steps in order, and of the end, or of nothing if the rule
is left out.
-/

namespace WorkflowAudit

variable {around : Surroundings} {w : Workflow}

/-! ### A rule by itself -/

namespace Rule

/-- The state and the reports of a rule that is told of one more part of the walk. A rule that does not
    care for such a part keeps its state and reports nothing. -/
def hear (around : Surroundings) (rule : Rule) (heard : rule.State × List Report) (v : Visit) :
    rule.State × List Report :=
  let (state, reports) := rule.visit around heard.1 v
  (state, heard.2 ++ reports)

/-- A rule that is told of a job: that it begins, its steps in order, and that it ends. -/
def hearJob (around : Surroundings) (rule : Rule) (heard : rule.State × List Report) (j : Job) :
    rule.State × List Report :=
  let entered := rule.hear around heard (.enterJob j)
  let stepped := j.steps.foldl (fun heard s => rule.hear around heard (.step s)) entered
  rule.hear around stepped (.leaveJob j)

/-- The findings of a rule that is told of a workflow from beginning to end. -/
def alone (around : Surroundings) (rule : Rule) (w : Workflow) : Dialog (List Finding) := do
  let entered := rule.hear around (rule.start, []) (.enter w)
  let heard := w.jobs.foldl (fun heard (_, j) => rule.hearJob around heard j) entered
  let (_, reports) ← rule.leave around heard.1 w
  return (heard.2 ++ reports).map (Finding.ofReport rule.ident)

theorem foldl_hear_job (rule : Rule) (heard : rule.State × List Report) (j : Job) :
    j.visits.foldl (rule.hear around) heard = rule.hearJob around heard j := by
  rw [Job.visits, List.foldl_cons, List.foldl_append, List.foldl_map]
  rfl

theorem foldl_hear_workflow (rule : Rule) (heard : rule.State × List Report) (w : Workflow) :
    w.visits.foldl (rule.hear around) heard =
      w.jobs.foldl (fun heard (_, j) => rule.hearJob around heard j)
        (rule.hear around heard (.enter w)) := by
  rw [Workflow.visits, List.foldl_cons, List.foldl_flatMap]
  simp only [foldl_hear_job]

end Rule

/-- The rule reports on each part of the walk by itself, whatever it has been told before, and on nothing
    more at the end. -/
structure Rule.Memoryless (rule : Rule) (look : Surroundings → Visit → List Report) : Prop where
  visit (around : Surroundings) (state : rule.State) (v : Visit) :
    (rule.visit around state v).2 = look around v
  leave (around : Surroundings) (state : rule.State) (w : Workflow) :
    ∃ last, rule.leave around state w = .done (last, [])

section Memoryless

variable {rule : Rule} {look : Surroundings → Visit → List Report}

theorem Rule.Memoryless.foldl_hear (h : rule.Memoryless look) (around : Surroundings)
    (heard : rule.State × List Report) (visits : List Visit) :
    (visits.foldl (rule.hear around) heard).2 = heard.2 ++ visits.flatMap (look around) := by
  induction visits generalizing heard with
  | nil => rw [List.foldl_nil, List.flatMap_nil, List.append_nil]
  | cons v visits ih =>
    rw [List.foldl_cons, ih, List.flatMap_cons, ← List.append_assoc, ← h.visit around heard.1 v]
    rfl

theorem Rule.Memoryless.alone_eq (h : rule.Memoryless look) (around : Surroundings) (w : Workflow) :
    rule.alone around w =
      .done ((w.visits.flatMap (look around)).map (Finding.ofReport rule.ident)) := by
  have hheard := h.foldl_hear around (rule.start, []) w.visits
  rw [List.nil_append] at hheard
  rw [Rule.alone, ← Rule.foldl_hear_workflow, ← hheard]
  obtain ⟨last, hlast⟩ := h.leave around (w.visits.foldl (rule.hear around) (rule.start, [])).1 w
  rw [hlast]
  show Dialog.done _ = _
  rw [List.append_nil]

theorem memoryless_stateless (ident description : String) (honoursFilter : Bool)
    (canRun : Surroundings → Bool) (look : Surroundings → Visit → List Report) :
    (Rule.stateless ident description honoursFilter canRun look).Memoryless look :=
  ⟨fun _ _ _ => rfl, fun _ state _ => ⟨state, rfl⟩⟩

/-- A rule without a state reports on each part of the walk by itself. -/
theorem alone_stateless (ident description : String) (honoursFilter : Bool)
    (canRun : Surroundings → Bool) (look : Surroundings → Visit → List Report)
    (around : Surroundings) (w : Workflow) :
    (Rule.stateless ident description honoursFilter canRun look).alone around w =
      .done ((w.visits.flatMap (look around)).map (Finding.ofReport ident)) :=
  (memoryless_stateless ident description honoursFilter canRun look).alone_eq around w

end Memoryless

/-! ### Watchers of one walk -/

/-- A step of the invariant: what a watcher sees of one part is what its rule hears of it. -/
theorem Watcher.see_eq_hear (rule : Rule) (heard : rule.State × List Report) (v : Visit) :
    Watcher.see around ⟨rule, heard.1, heard.2⟩ v =
      ⟨rule, (rule.hear around heard v).1, (rule.hear around heard v).2⟩ := rfl

theorem Watcher.foldl_see (around : Surroundings) (rule : Rule)
    (heard : rule.State × List Report) (visits : List Visit) :
    visits.foldl (Watcher.see around) ⟨rule, heard.1, heard.2⟩ =
      ⟨rule, (visits.foldl (rule.hear around) heard).1,
        (visits.foldl (rule.hear around) heard).2⟩ := by
  induction visits generalizing heard with
  | nil => rfl
  | cons v visits ih => rw [List.foldl_cons, List.foldl_cons, Watcher.see_eq_hear, ih]

/-- After any parts of the walk, each watcher is where it would be alone. -/
theorem foldl_seeAll (watchers : List Watcher) (visits : List Visit) :
    visits.foldl (seeAll around) watchers =
      watchers.map fun watcher => visits.foldl (Watcher.see around) watcher := by
  induction visits generalizing watchers with
  | nil => simp
  | cons v visits ih =>
    rw [List.foldl_cons, ih, seeAll, List.map_map]
    rfl

/-! ### Findings of several dialogs -/

/-- The dialogs one after the other, and the findings of all. -/
def inTurn : List (Dialog (List Finding)) → Dialog (List Finding)
  | [] => .done []
  | d :: rest => do
    let findings ← d
    let others ← inTurn rest
    return findings ++ others

theorem leaveAll_eq_inTurn (watchers : List Watcher) :
    leaveAll around w watchers = inTurn (watchers.map (Watcher.leave around w)) := by
  induction watchers with
  | nil => rfl
  | cons watcher rest ih => rw [leaveAll, List.map_cons, inTurn, ih]

theorem inTurn_singleton (d : Dialog (List Finding)) : inTurn [d] = d := by
  have hdone : (do let findings ← d; pure (findings ++ []) : Dialog (List Finding)) = d := by simp
  exact hdone

theorem inTurn_silent (ds : List (Dialog (List Finding))) : inTurn (.done [] :: ds) = inTurn ds := by
  have hpure : (do let others ← inTurn ds; pure ([] ++ others) : Dialog (List Finding)) =
      inTurn ds := by simp
  exact hpure

/-- What has come about, and then a dialog with the network as it has been left. -/
def Outcome.andThen (probe : Probe) (earlier : List String) (done : Outcome)
    (d : Dialog (List Finding)) : Outcome :=
  let (findings, activity) := d.run probe (earlier ++ done.activity.requests) {}
  ⟨done.findings ++ findings, done.activity.andThen activity⟩

theorem run_inTurn (probe : Probe) (earlier : List String) (ds : List (Dialog (List Finding)))
    (found : List Finding) (activity : Activity) :
    (⟨found ++ ((inTurn ds).run probe earlier activity).1,
        ((inTurn ds).run probe earlier activity).2⟩ : Outcome) =
      ds.foldl (Outcome.andThen probe earlier) ⟨found, activity⟩ := by
  induction ds generalizing found activity with
  | nil => rw [inTurn, Dialog.run, List.append_nil, List.foldl_nil]
  | cons d ds ih =>
    rw [List.foldl_cons, Outcome.andThen, ← ih, inTurn]
    simp only [Dialog.run_bind, Dialog.run_pure]
    rw [Dialog.run_eq_andThen probe earlier d activity, List.append_assoc]

/-- Nothing is asked in the dialog. -/
def Dialog.Silent (d : Dialog (List Finding)) : Prop :=
  ∃ findings, d = .done findings

theorem silent_inTurn {ds : List (Dialog (List Finding))} (h : ∀ d ∈ ds, d.Silent) :
    (inTurn ds).Silent := by
  induction ds with
  | nil => exact ⟨[], rfl⟩
  | cons d ds ih =>
    obtain ⟨findings, rfl⟩ := h d (List.mem_cons_self ..)
    obtain ⟨others, hothers⟩ := ih fun e he => h e (List.mem_cons_of_mem _ he)
    exact ⟨findings ++ others, by rw [inTurn, hothers]; rfl⟩

theorem Dialog.Silent.run_eq {d : Dialog (List Finding)} (h : d.Silent) (probe : Probe)
    (earlier : List String) (activity : Activity) :
    d.run probe earlier activity = ((d.run probe earlier {}).1, activity) := by
  obtain ⟨findings, rfl⟩ := h
  rfl

/-- Where no two dialogs ask, each of them might as well be held alone. -/
theorem run_inTurn_of_pairwise_silent (probe : Probe) (earlier : List String)
    {ds : List (Dialog (List Finding))} (h : ds.Pairwise fun d e => d.Silent ∨ e.Silent) :
    ((inTurn ds).run probe earlier {}).1 = ds.flatMap fun d => (d.run probe earlier {}).1 := by
  induction ds with
  | nil => rfl
  | cons d ds ih =>
    obtain ⟨hd, hds⟩ := List.pairwise_cons.1 h
    rw [inTurn, List.flatMap_cons, ← ih hds]
    simp only [Dialog.run_bind, Dialog.run_pure]
    by_cases hsilent : d.Silent
    · rw [hsilent.run_eq]
    · have hothers := silent_inTurn fun e he => (hd e he).resolve_left hsilent
      rw [hothers.run_eq]

theorem outcome_bind (answers : String → Answer) (d : Dialog (List Finding))
    (f : List Finding → Dialog (List Finding)) :
    (d >>= f).outcome answers = (f (d.outcome answers)).outcome answers := by
  show (d.bind f).outcome answers = _
  induction d with
  | done result => rfl
  | ask url next ih => exact ih _
  | wait seconds next ih => exact ih

theorem outcome_inTurn (answers : String → Answer) (ds : List (Dialog (List Finding))) :
    (inTurn ds).outcome answers = ds.flatMap (·.outcome answers) := by
  induction ds with
  | nil => rfl
  | cons d ds ih =>
    rw [inTurn, outcome_bind, outcome_bind, ih, List.flatMap_cons]
    rfl

/-! ### Walks -/

/-- The rule is left out of the walk: it honours the trigger filter, and the filter names events of
    which none starts the workflow. -/
def Surroundings.LeavesOut (around : Surroundings) (w : Workflow) (rule : Rule) : Prop :=
  rule.honoursFilter ∧ around.settings.triggers.events ≠ [] ∧
    ∀ t ∈ w.triggers, t.event ∉ around.settings.triggers.events

theorem watches_eq_false_iff (rule : Rule) :
    around.watches w rule = false ↔ around.LeavesOut w rule := by
  simp [Surroundings.watches, Surroundings.letsThrough, Surroundings.LeavesOut,
    TriggerFilter.passes, TriggerFilter.isEmpty, TriggerFilter.contains, and_comm]

theorem leave_watcher (rule : Rule) :
    (w.visits.foldl (Watcher.see around) (.ofRule rule)).leave around w = rule.alone around w := by
  have hheard := Watcher.foldl_see around rule (rule.start, []) w.visits
  rw [Rule.foldl_hear_workflow] at hheard
  rw [Watcher.ofRule, hheard]
  rfl

theorem walk_eq_alone (rules : List Rule) :
    walk around rules w =
      inTurn ((rules.filter (around.watches w)).map fun rule => rule.alone around w) := by
  rw [walk, foldl_seeAll, leaveAll_eq_inTurn, List.map_map, List.map_map]
  simp only [Function.comp_def, leave_watcher]

/-- What a rule makes of a walk: nothing if it is left out. -/
theorem walk_singleton (rule : Rule) :
    walk around [rule] w = if around.watches w rule then rule.alone around w else .done [] := by
  rw [walk_eq_alone, List.filter_singleton]
  cases around.watches w rule with
  | true => exact inTurn_singleton _
  | false => rfl

theorem walk_eq_inTurn (rules : List Rule) :
    walk around rules w = inTurn (rules.map fun rule => walk around [rule] w) := by
  rw [walk_eq_alone]
  induction rules with
  | nil => rfl
  | cons rule rules ih =>
    rw [List.map_cons, walk_singleton]
    cases hwatches : around.watches w rule with
    | true =>
      rw [List.filter_cons_of_pos hwatches, List.map_cons, inTurn, ih]
      rfl
    | false =>
      rw [List.filter_cons_of_neg (Bool.not_eq_true _ ▸ hwatches), ih]
      exact (inTurn_silent _).symm

/-- What comes of the rules in turn, each on the network as those before it have left it. -/
def dispatchInTurn (around : Surroundings) (rules : List Rule) (w : Workflow) : Outcome :=
  (rules.map fun rule => walk around [rule] w).foldl
    (Outcome.andThen around.network around.earlier) ⟨[], {}⟩

theorem dispatch_eq_inTurn (rules : List Rule) :
    dispatch around rules w = dispatchInTurn around rules w := by
  rw [dispatchInTurn, ← run_inTurn, ← walk_eq_inTurn, List.nil_append]
  rfl

theorem dispatch_findings_of_steady (hsteady : around.network.Steady) (rules : List Rule) :
    (dispatch around rules w).findings = (walk around rules w).outcome (around.network.answer []) :=
  Dialog.run_eq_outcome hsteady around.earlier (walk around rules w) {}

/-- No two of the rules ask the network. -/
def NoTwoAsk (around : Surroundings) (rules : List Rule) (w : Workflow) : Prop :=
  rules.Pairwise fun a b => (walk around [a] w).Silent ∨ (walk around [b] w).Silent

theorem dispatch_findings_of_noTwoAsk {rules : List Rule} (h : NoTwoAsk around rules w) :
    (dispatch around rules w).findings =
      rules.flatMap fun rule => (dispatch around [rule] w).findings := by
  have hpairs : (rules.map fun rule => walk around [rule] w).Pairwise fun d e =>
      d.Silent ∨ e.Silent := List.pairwise_map.2 h
  have hrun := run_inTurn_of_pairwise_silent around.network around.earlier hpairs
  rw [← walk_eq_inTurn, List.flatMap_map] at hrun
  exact hrun

/-- Rules do not interfere: a walk with many rules is the walks with each of them in turn, and so is
    what comes of it. If no two of the rules ask the network, or its answers depend on the address only,
    the findings are those of the rules alone, one after the other. A rule that is left out is told of
    nothing; any other is told of the workflow, then, for each job in order, of the job, of its steps in
    order and of its end, and last of the end of the workflow. -/
theorem walk_tells_each_rule_alone (around : Surroundings) (rules : List Rule) (w : Workflow) :
    walk around rules w = inTurn (rules.map fun rule => walk around [rule] w) ∧
    dispatch around rules w = dispatchInTurn around rules w ∧
    (NoTwoAsk around rules w ∨ around.network.Steady → (dispatch around rules w).findings =
      rules.flatMap fun rule => (dispatch around [rule] w).findings) ∧
    ∀ rule : Rule,
      (around.LeavesOut w rule → walk around [rule] w = .done []) ∧
      (¬around.LeavesOut w rule → walk around [rule] w = rule.alone around w) := by
  refine ⟨walk_eq_inTurn rules, dispatch_eq_inTurn rules, ?_, fun rule => ⟨?_, ?_⟩⟩
  · rintro (hask | hsteady)
    · exact dispatch_findings_of_noTwoAsk hask
    · simp only [dispatch_findings_of_steady hsteady]
      rw [walk_eq_inTurn rules, outcome_inTurn, List.flatMap_map]
  · intro hout
    rw [walk_singleton, (watches_eq_false_iff rule).2 hout]
    rfl
  · intro hin
    have hwatches : around.watches w rule = true := by
      rwa [← watches_eq_false_iff, Bool.not_eq_false] at hin
    rw [walk_singleton, hwatches]
    rfl

/-- A rule that counts steps, and reports at the end of a job on the line of their number. -/
def stepCounter (honoursFilter : Bool) : Rule where
  ident := "step-counter"
  description := "Counts the steps of a job"
  honoursFilter := honoursFilter
  State := Nat
  start := 0
  visit _ count v :=
    match v with
    | .step _ => (count + 1, [])
    | .leaveJob _ => (0, [⟨⟨count, 1⟩, "end of job"⟩])
    | _ => (count, [])

/-- A workflow for issues with two jobs, of two steps and of none. -/
def twoJobs : Workflow where
  name := none
  triggers := [⟨"issues", ⟨1, 5⟩⟩]
  env := []
  jobs :=
    let scalar (value : String) (p : Position) : Yaml.Scalar := ⟨value, p, .plain, [⟨0, p⟩]⟩
    let step (p : Position) : Step :=
      ⟨p, none, none, none, [], .uses (scalar "gone/x" p) [] none none⟩
    let job (id : String) (p : Position) (steps : List Step) : Job :=
      ⟨scalar id p, p, none, none, [], none, [], none, [], steps⟩
    [("a", job "a" ⟨3, 3⟩ [step ⟨5, 15⟩, step ⟨6, 15⟩]), ("b", job "b" ⟨7, 3⟩ [])]

/-- Surroundings in which only workflows for pushes pass the filter. -/
def pushesOnly : Surroundings where
  settings := { triggers := ⟨["push"]⟩, connected := true }
  untrusted := untrusted
  probe := some ⟨fun _ _ => .status 404⟩

/-- Of two counters one is left out, and the other counts as if it were alone. -/
theorem walk_tells_each_counter_alone :
    pushesOnly.network.Steady ∧
    pushesOnly.LeavesOut twoJobs (stepCounter true) ∧
    ¬pushesOnly.LeavesOut twoJobs (stepCounter false) ∧
    walk pushesOnly [stepCounter true] twoJobs = .done [] ∧
    walk pushesOnly [stepCounter false] twoJobs = (stepCounter false).alone pushesOnly twoJobs ∧
    (dispatch pushesOnly [stepCounter false, stepCounter true, .repoJacking] twoJobs).findings =
      (dispatch pushesOnly [stepCounter false] twoJobs).findings ++
        (dispatch pushesOnly [.repoJacking] twoJobs).findings ∧
    (dispatch pushesOnly [stepCounter false] twoJobs).findings.map (·.position) =
      [⟨2, 1⟩, ⟨0, 1⟩] := by
  have hsteady : pushesOnly.network.Steady := fun _ _ => rfl
  have hout : pushesOnly.LeavesOut twoJobs (stepCounter true) := by
    refine ⟨rfl, by decide, ?_⟩
    decide
  have hin : ¬pushesOnly.LeavesOut twoJobs (stepCounter false) := fun h => by cases h.1
  obtain ⟨-, -, hfindings, hrule⟩ := walk_tells_each_rule_alone pushesOnly
    [stepCounter false, stepCounter true, .repoJacking] twoJobs
  refine ⟨hsteady, hout, hin, (hrule _).1 hout, (hrule _).2 hin, ?_, by decide⟩
  rw [hfindings (.inr hsteady)]
  simp [dispatch, (hrule _).1 hout, Dialog.run]

end WorkflowAudit
