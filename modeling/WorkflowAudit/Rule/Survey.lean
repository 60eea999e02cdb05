import WorkflowAudit.Rule.Artifact

/-!
Rules that point out workflows of interest rather than faults. They run only when they are asked for.
-/

namespace WorkflowAudit.Rule

/-- The rules of a survey are asked for. -/
def surveying (around : Surroundings) : Bool :=
  around.settings.debugRules

/-- The event is one to point out: one of the filter's, or an external one when there is no filter. -/
def isNotable (filter : TriggerFilter) (event : String) : Bool :=
  if filter.isEmpty then externalTriggers.contains event else filter.contains event

/-- Points out named workflows by the first notable event that starts them. -/
def debugExternalTrigger : Rule :=
  stateless "debug-external-trigger" "Reports workflows that can be triggered externally" true
    surveying fun around v =>
      match v with
      | .enter w =>
        match w.triggers.find? (isNotable around.settings.triggers ·.event), w.name with
        | some trigger, some name =>
          [⟨name.position, s!"Use of action with \"{trigger.event}\" workflow trigger."⟩]
        | _, _ => []
      | _ => []

/-- Points out uploads of artifacts. -/
def debugArtefacts : Rule :=
  stateless "debug-artefacts" "Reports workflows that upload artifacts" true surveying fun _ v =>
    match v with
    | .step s =>
      match s.body with
      | .uses action _ _ _ =>
        if Text.startsWith action.value "actions/upload-artifact" then
          [⟨action.position, "Use of action \"actions/upload-artifact\""⟩]
        else []
      | .run .. => []
    | _ => []

/-- Points out scripts given to an action that run commands of the system. -/
def debugJsExec : Rule :=
  stateless "debug-js-exec" "Reports workflows that run system commands from JS scripts" true
    surveying fun _ v =>
      match v with
      | .step s =>
        match s.body with
        | .uses action inputs _ _ =>
          firstInScriptInput action inputs (.literal "exec.exec(")
            "Use of \"exec.exec()\" in \"actions/github-script\" action."
        | .run .. => []
      | _ => []

end WorkflowAudit.Rule
