import WorkflowAudit.Yaml.Data.Value

/-!
Reading values as the records, lists and texts that a file format asks for. An absent value stands
for an empty record or list; a value of another kind, a key that is not a scalar and a known field
given twice are refused.
-/

namespace WorkflowAudit.Yaml.Data.Value

/-- The value is left out: a plain scalar without text. -/
def isAbsent : Value → Bool
  | .scalar text plain _ => plain && text.isEmpty
  | _ => false

/-- The pairs of a mapping. -/
def pairs? (v : Value) : Option (List (Value × Value)) :=
  match v with
  | .mapping pairs => some pairs
  | v => if v.isAbsent then some [] else none

/-- The items of a sequence. -/
def items? (v : Value) : Option (List Value) :=
  match v with
  | .sequence items => some items
  | v => if v.isAbsent then some [] else none

/-- The texts of a list of scalars. -/
def texts? (v : Value) : Option (List String) := do
  (← v.items?).mapM text?

/-- The fields of a record. None of the `known` ones may be there twice. -/
def fields? (known : List String) (v : Value) : Option (List (String × Value)) := do
  let fields ← (← v.pairs?).mapM fun (key, value) => do return (← key.text?, value)
  let names := fields.map (·.1)
  guard (known.all fun name => names.count name ≤ 1)
  return fields

/-- The fields of a record that has no others than the `known` ones. -/
def closedFields? (known : List String) (v : Value) : Option (List (String × Value)) := do
  let fields ← v.fields? known
  guard (fields.all fun field => known.contains field.1)
  return fields

/-- Reads a field, which has a value of its own when it is not there. -/
def field? {α : Type} (fields : List (String × Value)) (name : String) (missing : α)
    (read : Value → Option α) : Option α :=
  match fields.lookup name with
  | some value => read value
  | none => some missing

/-- A plain scalar that spells null. -/
def isNull (text : String) : Bool :=
  text = "null" || text = "Null" || text = "NULL" || text = "~"

/-- Reads a value that may be null. -/
def optional? {α : Type} (read : Value → Option α) (v : Value) : Option (Option α) :=
  match v with
  | .scalar text true (some "tag:yaml.org,2002:null") => if isNull text then some none else none
  | .scalar text true none => if text.isEmpty || isNull text then some none else (read v).map some
  | v => (read v).map some

/-- Reads a text of one document; a text without a document has an absent value. -/
def ofText? (text : String) : Option Value := do
  match ← allOfText? text.toList with
  | [] => return .scalar "" true none
  | [v] => return v
  | _ => none

end WorkflowAudit.Yaml.Data.Value
