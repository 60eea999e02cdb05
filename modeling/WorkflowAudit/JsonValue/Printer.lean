import WorkflowAudit.JsonValue.Basic

/-!
JSON as text, with a line for each item and two spaces for each level.
-/

namespace WorkflowAudit.JsonValue

/-- A hexadecimal digit. -/
def hexDigit (n : Nat) : Char :=
  if n < 10 then Char.ofNat (48 + n) else Char.ofNat (87 + n)

/-- A character inside a string: quotes, backslashes and control characters are escaped. -/
def escapeChar (c : Char) : List Char :=
  match c with
  | '"' => ['\\', '"']
  | '\\' => ['\\', '\\']
  | '\x08' => ['\\', 'b']
  | '\x0c' => ['\\', 'f']
  | '\n' => ['\\', 'n']
  | '\r' => ['\\', 'r']
  | '\t' => ['\\', 't']
  | c =>
    if c.toNat < 32 then ['\\', 'u', '0', '0', hexDigit (c.toNat / 16), hexDigit (c.toNat % 16)]
    else [c]

/-- A string in quotes. -/
def quote (s : String) : String :=
  "\"" ++ String.ofList (s.toList.flatMap escapeChar) ++ "\""

/-- A line break and the spaces of a level. -/
def newLine (level : Nat) : String :=
  "\n" ++ String.ofList (List.replicate (2 * level) ' ')

mutual

/-- The text of a value inside `level` others. -/
def print (level : Nat) : JsonValue → String
  | .null => "null"
  | .bool true => "true"
  | .bool false => "false"
  | .number text => text
  | .string s => quote s
  | .array [] => "[]"
  | .array items =>
    "[" ++ ",".intercalate (printItems (level + 1) items) ++ newLine level ++ "]"
  | .object [] => "\x7b\x7d"
  | .object members =>
    "\x7b" ++ ",".intercalate (printMembers (level + 1) members) ++ newLine level ++ "\x7d"

/-- The texts of items, each on a line of its own. -/
def printItems (level : Nat) : List JsonValue → List String
  | [] => []
  | v :: rest => (newLine level ++ v.print level) :: printItems level rest

/-- The texts of members, each on a line of its own. -/
def printMembers (level : Nat) : List (String × JsonValue) → List String
  | [] => []
  | (name, v) :: rest =>
    (newLine level ++ quote name ++ ": " ++ v.print level) :: printMembers level rest

end

/-- The text of a value. -/
def pretty (v : JsonValue) : String :=
  v.print 0

end WorkflowAudit.JsonValue
