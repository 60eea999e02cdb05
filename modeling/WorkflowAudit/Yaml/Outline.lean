/-!
The outline of a document: where its nodes stand in the text, before any scalar is decoded or any
alias resolved. Places are indices of characters.
-/

namespace WorkflowAudit.Yaml

/-- How a scalar is written. -/
inductive Style where
  | plain | single | double | literal | folded
  deriving DecidableEq, Repr

namespace Style

/-- Written between quotes. -/
def isQuoted : Style → Bool
  | single | double => true
  | plain | literal | folded => false

/-- Written as an indented block of lines. -/
def isBlock : Style → Bool
  | literal | folded => true
  | plain | single | double => false

end Style

/-- A node of the outline. The items of a mapping are pairs; a pair among the items of a sequence is a
    mapping of its own with that one pair. -/
inductive Outline where
  /-- No node at all: a pair without a key or without a value. -/
  | absent
  /-- A node without content. -/
  | empty (start : Nat)
  | scalar (style : Style) (start stop : Nat)
  | alias (start : Nat) (name : String)
  | sequence (start : Nat) (items : List Outline)
  | mapping (start : Nat) (pairs : List Outline)
  | pair (start : Nat) (key value : Outline)
  | anchored (name : String) (content : Outline)
  deriving Repr

/-- There is no node. -/
def Outline.isAbsent : Outline → Bool
  | absent => true
  | _ => false

/-- A document: where it begins, its first directive of unknown kind, and its content. -/
structure Document where
  start : Nat
  reserved : Option Nat
  content : Outline
  deriving Repr

end WorkflowAudit.Yaml
