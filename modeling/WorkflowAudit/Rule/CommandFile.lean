import WorkflowAudit.Rule.Artifact
import WorkflowAudit.Text.Ascii

/-!
Writes to the files through which a step hands outputs and variables to later steps, and the variable
that brings back the commands which did the same.
-/

namespace WorkflowAudit.Rule

/-- A name such as `$env:NAME`, the usual way to a variable in a powershell script. -/
def powershellVariable (name : String) : Pattern :=
  .inOrder [.literalAnyCase "env", .literal ":", .literal name]

/-- Output that a shell appends to the file a variable names. -/
def shellAppend (name : String) : Pattern :=
  .inOrder [.literal ">>", .run .space, .run (.single '"'), .literal "$", .run (.single '\x7b'),
    .literal name]

/-- The patterns for writes, each with its message. -/
def writePatterns : List (Pattern × String) :=
  ["GITHUB_OUTPUT", "GITHUB_ENV"].flatMap fun name =>
    [(powershellVariable name,
        s!"Write to \"${name}\" in a powershell script. It might be a false positive, The regexp must be improved"),
      (shellAppend name, s!"Write to \"${name}\" in a bash script.")]

/-- The reports on a step that writes to one of the files. -/
def writeReports (s : Step) : List Report :=
  match s.body with
  | .run script _ _ => writePatterns.flatMap fun (p, message) => firstIn script p message
  | .uses .. => []

/-- Reports writes to the files for outputs and variables. -/
def dangerousWrite : Rule :=
  ofSteps "dangerous-write" "Checks for writes to $GITHUB_OUTPUT or $GITHUB_ENV"
    fun _ => writeReports

/-- The reports on variables that allow the commands. -/
def unsecureVariables (env : List EnvVar) : List Report :=
  (env.filter fun v => Text.sameIgnoringCase v.name.value "ACTIONS_ALLOW_UNSECURE_COMMANDS").map
    fun v => ⟨v.name.position, s!"environment variable name \"{v.name.value}\" is set."⟩

/-- Reports the variable that allows the commands, wherever it is set. -/
def unsecuredCommands : Rule :=
  stateless "unsecured-commands"
    "Checks for the ACTIONS_ALLOW_UNSECURE_COMMANDS environment variable" true (fun _ => true)
    fun _ v =>
      match v with
      | .enter w => unsecureVariables w.env
      | .enterJob j => unsecureVariables j.env
      | .step s => unsecureVariables s.env
      | _ => []

end WorkflowAudit.Rule
