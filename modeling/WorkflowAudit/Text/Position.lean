/-!
Positions in a document: line and column, both counted from one. A line feed begins a new line, and a
character fills as many columns as it has bytes.
-/

namespace WorkflowAudit

/-- A line and a column. -/
structure Position where
  line : Nat
  column : Nat
  deriving DecidableEq, Repr, Inhabited

namespace Position

/-- The beginning of a document. -/
def start : Position := ⟨1, 1⟩

/-- The position after one more character. -/
def advance (p : Position) (c : Char) : Position :=
  if c = '\n' then ⟨p.line + 1, 1⟩ else ⟨p.line, p.column + c.utf8Size⟩

/-- The position of the character with a given index. -/
def ofIndex (document : List Char) (index : Nat) : Position :=
  (document.take index).foldl advance start

/-- The order of reading: by line, then by column. -/
def le (p q : Position) : Bool :=
  p.line < q.line || (p.line = q.line && p.column ≤ q.column)

/-- A position as `line:column`. -/
def text (p : Position) : String :=
  s!"{p.line}:{p.column}"

end Position

end WorkflowAudit
