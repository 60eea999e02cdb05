import WorkflowAudit.Rule.Artifact

/-!
Uses of actions that deserve a look by their name alone.
-/

namespace WorkflowAudit.Rule

/-- The report on a step that uses an action of its own project. -/
def localActionReports (actions : Option ActionIndex) (s : Step) : List Report :=
  match s.body with
  | .run .. => []
  | .uses action _ _ _ =>
    if Text.startsWith action.value "./" then
      let runsUsing := (actions.bind (·.lookup? action.value)).bind (·.runsUsing)
      let message := match runsUsing with
        | some tool => s!"Use of local action \"{action.value}\" (runs using \"{tool}\")"
        | none => s!"Use of local action \"{action.value}\""
      [⟨action.position, message⟩]
    else []

/-- Reports actions of the project itself. -/
def localAction : Rule :=
  ofSteps "local-action" "Checks for uses of local actions"
    fun around => localActionReports around.actions

/-- Actions that trade the identity of a workflow for the credentials of a cloud. -/
def identityActions : List String :=
  ["aws-actions/configure-aws-credentials", "azure/login"]

/-- Reports actions that trade identities. -/
def oidcAction : Rule :=
  stateless "oidc-action" "Checks for OIDC actions" false (fun _ => true) fun _ v =>
    match v with
    | .step s =>
      match s.body with
      | .uses action _ _ _ =>
        if identityActions.any (Text.startsWith action.value) then
          [⟨action.position, s!"Use of OIDC action \"{action.value}\""⟩]
        else []
      | .run .. => []
    | _ => []

end WorkflowAudit.Rule
