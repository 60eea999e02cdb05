import WorkflowAudit.Text.Ascii
import WorkflowAudit.Number.Shortest

/-!
Expressions embedded in a workflow: literals, context variables, accessor chains, calls and operators.
Each node carries the place where it begins in the text it was read from.
-/

namespace WorkflowAudit

/-- A place in a text: line and column, both from one, the column counted in characters, and the
    offset in bytes. -/
structure Origin where
  line : Nat
  column : Nat
  offset : Nat
  deriving DecidableEq, Repr

namespace Origin

/-- The beginning of a text. -/
def start : Origin := ⟨1, 1, 0⟩

/-- The place after one more character; a line feed begins a new line. -/
def advance (o : Origin) (c : Char) : Origin :=
  if c = '\n' then ⟨o.line + 1, 1, o.offset + c.utf8Size⟩
  else ⟨o.line, o.column + 1, o.offset + c.utf8Size⟩

/-- The place after the characters of a text. -/
def advanceAll (o : Origin) (cs : List Char) : Origin :=
  cs.foldl advance o

end Origin

/-- A literal value; in a string each doubled quote has been read as one. -/
inductive Literal where
  | number (value : Binary64)
  | string (value : String)
  | boolean (value : Bool)
  | null
  deriving Repr

namespace Literal

/-- The text of a literal; a string stands without its quotes. -/
def text : Literal → String
  | number v => v.text
  | string s => s
  | boolean true => "true"
  | boolean false => "false"
  | null => "null"

/-- Equality of literals: numbers by value, strings exactly. -/
def same : Literal → Literal → Bool
  | number a, number b => a.same b
  | string a, string b => a == b
  | boolean a, boolean b => a == b
  | null, null => true
  | _, _ => false

end Literal

/-- The operators with two operands. -/
inductive BinaryOp where
  | and | or | eq | ne | lt | le | gt | ge
  deriving DecidableEq, Repr

/-- An operator as it is written. -/
def BinaryOp.symbol : BinaryOp → String
  | and => "&&"
  | or => "||"
  | eq => "=="
  | ne => "!="
  | lt => "<"
  | le => "<="
  | gt => ">"
  | ge => ">="

/-- An expression. A chain of accessors begins where its head begins; a binary operation begins where
    its left operand begins, an opening parenthesis included. -/
inductive Expr where
  | literal (origin : Origin) (value : Literal)
  | var (origin : Origin) (name : String)
  | property (origin : Origin) (receiver : Expr) (name : String)
  | filter (origin : Origin) (receiver : Expr)
  | index (origin : Origin) (operand : Expr) (key : Expr)
  | call (origin : Origin) (function : String) (args : List Expr)
  | binary (origin : Origin) (op : BinaryOp) (lhs rhs : Expr)
  | not (origin : Origin) (operand : Expr)

namespace Expr

/-- Where the expression begins. -/
def origin : Expr → Origin
  | literal o _ | var o _ | property o _ _ | filter o _ | index o _ _ | call o _ _
  | binary o _ _ _ | not o _ => o

/-- The direct parts of an expression, in source order. -/
def children : Expr → List Expr
  | literal _ _ | var _ _ => []
  | property _ r _ | filter _ r => [r]
  | index _ e k => [e, k]
  | call _ _ args => args
  | binary _ _ l r => [l, r]
  | not _ e => [e]

/-- The dotted path of an accessor chain that starts at a variable. An object filter and a computed
    index stand as `*`, a string index as its text. Nothing else has a path. -/
def contextPath? : Expr → Option String
  | var _ name => some name
  | property _ r name => r.contextPath?.map (· ++ "." ++ name)
  | filter _ r => r.contextPath?.map (· ++ ".*")
  | index _ e (literal _ (.string s)) => e.contextPath?.map (· ++ "." ++ s)
  | index _ e _ => e.contextPath?.map (· ++ ".*")
  | literal .. | call .. | binary .. | not .. => none

mutual

/-- Equality of two nodes but for their own origins: names ignore ASCII case, the parts are compared
    with their origins. -/
def sameNode : Expr → Expr → Bool
  | literal _ a, literal _ b => a.same b
  | var _ a, var _ b => Text.sameIgnoringCase a b
  | property _ r a, property _ s b => r.same s && Text.sameIgnoringCase a b
  | filter _ r, filter _ s => r.same s
  | index _ e k, index _ f l => e.same f && k.same l
  | call _ f xs, call _ g ys => Text.sameIgnoringCase f g && sameAll xs ys
  | binary _ o l r, binary _ p m s => o == p && l.same m && r.same s
  | not _ e, not _ f => e.same f
  | _, _ => false

/-- Equality of two expressions, origins included. -/
def same (a b : Expr) : Bool :=
  a.origin == b.origin && sameNode a b

/-- Equality of two lists of arguments, one by one. -/
def sameAll : List Expr → List Expr → Bool
  | [], [] => true
  | x :: xs, y :: ys => x.same y && sameAll xs ys
  | _, _ => false

end

end Expr

end WorkflowAudit
