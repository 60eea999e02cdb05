import WorkflowAudit.Rule.ActionUse
import WorkflowAudit.Rule.Artifact
import WorkflowAudit.Rule.BotCheck
import WorkflowAudit.Rule.Checkout
import WorkflowAudit.Rule.CommandFile
import WorkflowAudit.Rule.Injection
import WorkflowAudit.Rule.Owner
import WorkflowAudit.Rule.Password
import WorkflowAudit.Rule.RunnerLabel
import WorkflowAudit.Rule.Survey

/-!
The rules there are, and those that run.
-/

namespace WorkflowAudit

/-- All rules, in the order in which their findings are listed. -/
def catalog : List Rule :=
  [.dangerousAction, .dangerousCheckout, .expressionInjection, .dangerousWrite, .localAction,
    .oidcAction, .runnerLabel, .unsecuredCommands, .botCheck, .credentials, .debugExternalTrigger,
    .debugArtefacts, .debugJsExec, .repoJacking]

/-- The rule is selected and can run. -/
def Surroundings.admits (around : Surroundings) (rule : Rule) : Bool :=
  around.settings.selection.enables rule.ident && rule.canRun around

/-- The rules that run in the surroundings. -/
def Surroundings.rules (around : Surroundings) : List Rule :=
  catalog.filter around.admits

/-- Some selected rule asks the network. -/
def Settings.wantsNetwork (s : Settings) : Bool :=
  s.selection.enables Rule.repoJacking.ident

end WorkflowAudit
