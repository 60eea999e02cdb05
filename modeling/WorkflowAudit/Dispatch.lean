import WorkflowAudit.Rule.Basic

/-!
Walking over a workflow once, with all rules watching. Each rule keeps its own state and reports, so
none can tell which others there are.
-/

namespace WorkflowAudit

/-- A rule at work: its state, and its reports so far. -/
structure Watcher where
  rule : Rule
  state : rule.State
  reports : List Report

namespace Watcher

/-- A rule before the walk. -/
def ofRule (rule : Rule) : Watcher :=
  ⟨rule, rule.start, []⟩

/-- The watcher after one more part of the walk. -/
def see (around : Surroundings) (w : Watcher) (v : Visit) : Watcher :=
  let (state, reports) := w.rule.visit around w.state v
  ⟨w.rule, state, w.reports ++ reports⟩

/-- The findings of a watcher after the end of the walk. -/
def leave (around : Surroundings) (workflow : Workflow) (w : Watcher) : Dialog (List Finding) := do
  let (_, reports) ← w.rule.leave around w.state workflow
  return (w.reports ++ reports).map (Finding.ofReport w.rule.ident)

end Watcher

/-- What comes of a walk: findings, by rule, and what has been done on the network. -/
structure Outcome where
  findings : List Finding
  activity : Activity
  deriving DecidableEq, Repr

/-- The workflow passes the trigger filter. -/
def Surroundings.letsThrough (around : Surroundings) (w : Workflow) : Bool :=
  around.settings.triggers.passes (w.triggers.map (·.event))

/-- The rule watches the walk over the workflow. -/
def Surroundings.watches (around : Surroundings) (w : Workflow) (rule : Rule) : Bool :=
  around.letsThrough w || !rule.honoursFilter

/-- One more part of the walk, for all watchers. -/
def seeAll (around : Surroundings) (watchers : List Watcher) (v : Visit) : List Watcher :=
  watchers.map (·.see around v)

/-- The end of the walk, for one watcher after the other. -/
def leaveAll (around : Surroundings) (workflow : Workflow) : List Watcher → Dialog (List Finding)
  | [] => .done []
  | w :: rest => do
    let findings ← w.leave around workflow
    let others ← leaveAll around workflow rest
    return findings ++ others

/-- Walks over a workflow with rules watching. Those that honour the trigger filter stay out of a walk
    over a workflow that does not pass it. -/
def walk (around : Surroundings) (rules : List Rule) (w : Workflow) : Dialog (List Finding) :=
  let watchers := (rules.filter (around.watches w)).map Watcher.ofRule
  leaveAll around w (w.visits.foldl (seeAll around) watchers)

/-- What comes of a walk, with the network asked. -/
def dispatch (around : Surroundings) (rules : List Rule) (w : Workflow) : Outcome :=
  let (findings, activity) := (walk around rules w).run around.network around.earlier {}
  ⟨findings, activity⟩

end WorkflowAudit
