import WorkflowAudit.Yaml.Data.Decode
import WorkflowAudit.Text.Bytes

/-!
The actions that a project defines itself, by the directory that holds each.
-/

namespace WorkflowAudit

open Yaml.Data (Value)

/-- The definition of an action: its name, and what it runs with. -/
structure ActionDefinition where
  name : Option String
  runsUsing : Option String
  deriving DecidableEq, Repr

namespace ActionDefinition

/-- Reads what an action runs with. -/
def runsUsing? (v : Value) : Option (Option String) := do
  Value.field? (← v.fields? ["using"]) "using" none (Value.optional? Value.text?)

/-- Reads the definition of an action. Fields of no interest may hold anything. -/
def ofValue? (v : Value) : Option ActionDefinition := do
  let fields ← v.fields? ["name", "runs"]
  let name ← Value.field? fields "name" none (Value.optional? Value.text?)
  let runs ← Value.field? fields "runs" none (Value.optional? runsUsing?)
  return ⟨name, runs.join⟩

/-- Reads the text of an action's definition. -/
def parse? (text : String) : Option ActionDefinition :=
  (Value.ofText? text).bind ofValue?

end ActionDefinition

/-- The actions of a project, by their directories relative to its root. -/
structure ActionIndex where
  actions : List (String × ActionDefinition) := []
  deriving DecidableEq, Repr

namespace ActionIndex

/-- The directory that a reference such as `./path` names. -/
def directory? (reference : String) : Option String := do
  let path ← Text.stripLead? ['.', '/'] reference.toList
  return String.ofList (path.reverse.dropWhile (· = '/')).reverse

/-- The action that a reference such as `./path` names. -/
def lookup? (index : ActionIndex) (reference : String) : Option ActionDefinition := do
  index.actions.lookup (← directory? reference)

end ActionIndex

end WorkflowAudit
