import WorkflowAudit.ActionIndex
import WorkflowAudit.Finding
import WorkflowAudit.Probe
import WorkflowAudit.Settings
import WorkflowAudit.Untrusted
import WorkflowAudit.Workflow

/-!
Rules. A rule watches a walk over a workflow: it is a machine with a state of its own that is shown one
part of the workflow after the other and reports on what it sees. When the walk is over, it may ask the
network before it reports.
-/

namespace WorkflowAudit

/-- What a walk over a workflow comes past before its end. -/
inductive Visit where
  | enter (workflow : Workflow)
  | enterJob (job : Job)
  | step (step : Step)
  | leaveJob (job : Job)

namespace Job

/-- The walk over a job. -/
def visits (j : Job) : List Visit :=
  .enterJob j :: (j.steps.map Visit.step ++ [.leaveJob j])

end Job

/-- The walk over a workflow: each job in order, and each step of a job in order. -/
def Workflow.visits (w : Workflow) : List Visit :=
  .enter w :: w.jobs.flatMap fun (_, job) => job.visits

/-- What a rule can consult. -/
structure Surroundings where
  settings : Settings
  untrusted : Trie
  /-- The network, unless it is not to be used. -/
  probe : Option Probe := none
  /-- The requests that others have made on the network. -/
  earlier : List String := []
  /-- The actions of the project that the workflow belongs to. -/
  actions : Option ActionIndex := none

/-- The network that is asked, one on which nothing answers if there is none. -/
def Surroundings.network (around : Surroundings) : Probe :=
  around.probe.getD .dead

/-- A rule. -/
structure Rule where
  ident : String
  description : String
  /-- The rule is left out for workflows that the trigger filter does not let through. -/
  honoursFilter : Bool := true
  /-- The rule can run in these surroundings. -/
  canRun : Surroundings → Bool := fun _ => true
  State : Type
  start : State
  /-- The state and the reports after one more part of the walk. -/
  visit : Surroundings → State → Visit → State × List Report
  /-- The state and the reports after the end of the walk. -/
  leave : Surroundings → State → Workflow → Dialog (State × List Report) := fun _ s _ => .done (s, [])

namespace Rule

/-- A rule that looks at each part of the walk by itself. -/
def stateless (ident description : String) (honoursFilter : Bool) (canRun : Surroundings → Bool)
    (look : Surroundings → Visit → List Report) : Rule where
  ident := ident
  description := description
  honoursFilter := honoursFilter
  canRun := canRun
  State := Unit
  start := ()
  visit around _ v := ((), look around v)

/-- A rule that looks at each step by itself. -/
def ofSteps (ident description : String) (look : Surroundings → Step → List Report) : Rule :=
  stateless ident description true (fun _ => true) fun around v =>
    match v with
    | .step s => look around s
    | _ => []

end Rule

end WorkflowAudit
