import WorkflowAudit.JsonValue.Basic
import WorkflowAudit.Number.Binary64
import WorkflowAudit.Text.Ascii

/-!
Reading JSON values as records. A record is an object, in which other members are passed over and none
of the record's own may be there twice, or an array with the fields in their order.
-/

namespace WorkflowAudit.JsonValue

/-- The text of a string. -/
def text? : JsonValue → Option String
  | .string s => some s
  | _ => none

/-- The items of an array. -/
def items? : JsonValue → Option (List JsonValue)
  | .array items => some items
  | _ => none

/-- A whole number without a sign that fits in 64 bits. -/
def word? : JsonValue → Option Nat
  | .number text =>
    if text.toList.all Char.isDigit then
      let n := Text.decimalValue text.toList
      if n < Nat.pow 2 64 then some n else none
    else none
  | _ => none

/-- The double nearest to a number as it is written. -/
def doubleOf (text : List Char) : Binary64 :=
  let (negative, cs) := match text with
    | '-' :: rest => (true, rest)
    | cs => (false, cs)
  let whole := cs.takeWhile Char.isDigit
  let fraction := match cs.drop whole.length with
    | '.' :: rest => rest.takeWhile Char.isDigit
    | _ => []
  let exponent : Int := match cs.dropWhile fun c => c ≠ 'e' && c ≠ 'E' with
    | _ :: '-' :: digits => -Text.decimalValue digits
    | _ :: '+' :: digits => Text.decimalValue digits
    | _ :: digits => Text.decimalValue digits
    | [] => 0
  .ofDecimal negative (Text.decimalValue (whole ++ fraction)) (exponent - fraction.length)

mutual

/-- No number in the value is too large for a double. -/
def isFinite : JsonValue → Bool
  | .number text => (doubleOf text.toList).isFinite
  | .array items => itemsFinite items
  | .object members => membersFinite members
  | .null | .bool _ | .string _ => true

/-- No number in the items is too large. -/
def itemsFinite : List JsonValue → Bool
  | [] => true
  | v :: rest => isFinite v && itemsFinite rest

/-- No number in the members is too large. -/
def membersFinite : List (String × JsonValue) → Bool
  | [] => true
  | (_, v) :: rest => isFinite v && membersFinite rest

end

/-- Reads a value that may be null. -/
def optional? {α : Type} (read : JsonValue → Option α) : JsonValue → Option (Option α)
  | .null => some none
  | v => (read v).map some

/-- The values of a record's fields, absent ones included. -/
def record? (names : List String) : JsonValue → Option (List (Option JsonValue))
  | .object members =>
    if names.all fun name => (members.map (·.1)).count name ≤ 1 then
      some (names.map fun name => members.lookup name)
    else none
  | .array items =>
    if items.length ≤ names.length then
      some (items.map some ++ List.replicate (names.length - items.length) none)
    else none
  | _ => none

end WorkflowAudit.JsonValue
