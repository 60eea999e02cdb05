/-!
JSON values. The members of an object are kept in order and numbers as they are written.
-/

namespace WorkflowAudit

/-- A JSON value. -/
inductive JsonValue where
  | null
  | bool (value : Bool)
  | number (text : String)
  | string (value : String)
  | array (items : List JsonValue)
  | object (members : List (String × JsonValue))
  deriving Repr, Inhabited

/-- The number `n`. -/
def JsonValue.ofNat (n : Nat) : JsonValue :=
  .number (toString n)

end WorkflowAudit
