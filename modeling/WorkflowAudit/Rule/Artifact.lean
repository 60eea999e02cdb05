import WorkflowAudit.Rule.Basic
import WorkflowAudit.Script

/-!
Steps that fetch the artifacts of other runs.
-/

namespace WorkflowAudit.Rule

open Yaml (Scalar)

/-- Actions that can fetch the artifacts of another repository. -/
def externalArtifactActions : List String :=
  ["dawidd6/action-download-artifact", "aochmann/actions-download-artifact",
    "bettermarks/action-artifact-download"]

/-- Actions that fetch the artifacts of another run of the same repository. -/
def localArtifactActions : List String :=
  ["blablacar/action-download-last-artifact"]

/-- The report that an action is used. -/
def useOfAction (action : Scalar) : Report :=
  ⟨action.position, s!"Use of action \"{action.value}\""⟩

/-- The first match of a pattern in a script, under a message. -/
def firstIn (script : Scalar) (p : Pattern) (message : String) : List Report :=
  match Script.find? p script.value with
  | some offset => [⟨script.positionAt offset, message⟩]
  | none => []

/-- The first match of a pattern in the script that an action is given, under a message. -/
def firstInScriptInput (action : Scalar) (inputs : Table Input) (p : Pattern) (message : String) :
    List Report :=
  if Text.startsWith action.value "actions/github-script" then
    match inputs.lookup "script" with
    | some script => firstIn script.value p message
    | none => []
  else []

/-- The reports on an action that fetches artifacts of the same repository. -/
def localArtifacts (action : Scalar) : List Report :=
  if localArtifactActions.any (Text.startsWith action.value) then [useOfAction action] else []

/-- The reports on an action that can fetch artifacts of another repository. -/
def externalArtifacts (action : Scalar) (inputs : Table Input) : List Report :=
  if externalArtifactActions.any (Text.startsWith action.value) then
    match inputs.lookup "repo" with
    | some repo =>
      [⟨repo.value.position, s!"Use of action \"{action.value}\" with external artifact"⟩]
    | none => [useOfAction action]
  else []

/-- The reports on a step that fetches artifacts. -/
def artifactReports (s : Step) : List Report :=
  match s.body with
  | .run script _ _ =>
    firstIn script (.literal "gh run download") "Use of \"gh run download\" in a script."
  | .uses action inputs _ _ =>
    localArtifacts action ++ externalArtifacts action inputs ++
      firstInScriptInput action inputs (.literal "downloadArtifact")
        "Use of \"downloadArtifact\" in \"actions/github-script\" action."

/-- Reports actions and commands that fetch artifacts. -/
def dangerousAction : Rule :=
  ofSteps "dangerous-action" "Checks for actions and commands that download artifacts"
    fun _ => artifactReports

end WorkflowAudit.Rule
