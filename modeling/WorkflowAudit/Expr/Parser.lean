import WorkflowAudit.Expr.Lexeme
import WorkflowAudit.Text.Bytes

/-!
Reading expressions. The tokens of a text are read by levels of binding strength: `||` binds weakest,
then `&&`, equality, comparison, negation, and accessors strongest; the binary levels associate to the
left. Every reader returns the tokens it leaves together with the fact that they are fewer.
-/

namespace WorkflowAudit

/-- The binary levels, from the weakest. -/
inductive Level where
  | or | and | equality | comparison
  deriving DecidableEq, Repr

namespace Level

/-- The next tighter binary level; operands of a comparison are not binary. -/
def tighter : Level → Option Level
  | or => some and
  | and => some equality
  | equality => some comparison
  | comparison => none

/-- How many binary levels bind at least as tightly. -/
def rank : Level → Nat
  | or => 4
  | and => 3
  | equality => 2
  | comparison => 1

/-- The level an operator belongs to. -/
def ofOp : BinaryOp → Level
  | .or => or
  | .and => and
  | .eq | .ne => equality
  | .lt | .le | .gt | .ge => comparison

/-- The operator that a lexeme is at this level. -/
def operator? (l : Level) : Lexeme → Option BinaryOp
  | .op o => if ofOp o = l then some o else none
  | _ => none

@[simp] theorem rank_or : Level.or.rank = 4 := rfl

theorem rank_pos (l : Level) : 0 < l.rank := by
  cases l <;> decide

theorem rank_tighter {l m : Level} (h : l.tighter = some m) : m.rank < l.rank := by
  cases l <;> simp [tighter] at h <;> subst h <;> decide

end Level

/-- The digits of the fraction at the front, perhaps none. -/
def Lexeme.fractionDigits : List Char → List Char
  | '.' :: ds => ds.takeWhile Char.isDigit
  | _ => []

/-- The power of ten of the exponent at the front, perhaps none. -/
def Lexeme.exponentValue : List Char → Int
  | _ :: '-' :: ds => -(Text.decimalValue ds : Int)
  | _ :: '+' :: ds => Text.decimalValue ds
  | _ :: ds => Text.decimalValue ds
  | [] => 0

/-- The number that a numeral stands for. -/
def Lexeme.numberValue : List Char → Binary64
  | '0' :: 'x' :: digits => .ofNat (Text.hexValue digits)
  | cs =>
    let negative := cs.head? = some '-'
    let cs := if negative then cs.drop 1 else cs
    let whole := cs.takeWhile Char.isDigit
    let cs := cs.drop whole.length
    let fraction := fractionDigits cs
    let cs := if fraction.isEmpty then cs else cs.drop (fraction.length + 1)
    .ofDecimal negative (Text.decimalValue (whole ++ fraction)) (exponentValue cs - fraction.length)

namespace Expr

/-- An expression read from `ts`, and the fewer tokens that are left. -/
abbrev Read (ts : List Token) :=
  { r : Expr × List Token // r.2.length < ts.length }

/-- Something read from `ts`, and the tokens that are left, perhaps all of them. -/
abbrev ReadSome (α : Type) (ts : List Token) :=
  { r : α × List Token // r.2.length ≤ ts.length }

/-- The literal or variable that a name alone stands for. -/
def ofName (origin : Origin) (name : String) : Expr :=
  if name = "null" then .literal origin .null
  else if name = "true" then .literal origin (.boolean true)
  else if name = "false" then .literal origin (.boolean false)
  else .var origin name

mutual

/-- An expression of a binary level: operands of the next level joined by operators of this one. -/
def readLevel (l : Level) (ts : List Token) : Option (Read ts) :=
  match ts with
  | [] => none
  | t :: rest =>
    match readOperand l (t :: rest) with
    | none => none
    | some ⟨(lhs, left), hleft⟩ =>
      match readOperators l t.origin lhs left with
      | none => none
      | some ⟨r, hr⟩ => some ⟨r, Nat.lt_of_le_of_lt hr hleft⟩
termination_by (ts.length, 3 * l.rank + 2)

/-- An operand of a binary level. -/
def readOperand (l : Level) (ts : List Token) : Option (Read ts) :=
  match h : l.tighter with
  | some m =>
    have := Level.rank_tighter h
    readLevel m ts
  | none =>
    have := l.rank_pos
    readUnary ts
termination_by (ts.length, 3 * l.rank + 1)

/-- The operators of a level and their right operands, folded to the left onto `lhs`. -/
def readOperators (l : Level) (start : Origin) (lhs : Expr) (ts : List Token) :
    Option (ReadSome Expr ts) :=
  match ts with
  | [] => some ⟨(lhs, []), Nat.le_refl _⟩
  | t :: rest =>
    match l.operator? t.lexeme with
    | none => some ⟨(lhs, t :: rest), Nat.le_refl _⟩
    | some op =>
      match readOperand l rest with
      | none => none
      | some ⟨(rhs, left), hleft⟩ =>
        have : left.length < rest.length + 1 := by simp at hleft; omega
        match readOperators l start (.binary start op lhs rhs) left with
        | none => none
        | some ⟨r, hr⟩ => some ⟨r, by simp at hleft ⊢; omega⟩
termination_by (ts.length, 3 * l.rank + 2)

/-- A negation, or a head with its accessors. -/
def readUnary (ts : List Token) : Option (Read ts) :=
  match ts with
  | [] => none
  | t :: rest =>
    if t.lexeme = .not then
      match readUnary rest with
      | none => none
      | some ⟨(e, left), h⟩ => some ⟨(.not t.origin e, left), Nat.lt_succ_of_lt h⟩
    else
      match readPrimary (t :: rest) with
      | none => none
      | some ⟨(head, left), h⟩ =>
        match readAccessors head left with
        | none => none
        | some ⟨r, hr⟩ => some ⟨r, Nat.lt_of_le_of_lt hr h⟩
termination_by (ts.length, 1)

/-- A call, a literal, a variable or a parenthesised expression. -/
def readPrimary (ts : List Token) : Option (Read ts) :=
  match ts with
  | [] => none
  | t :: rest =>
    match t.lexeme with
    | .number text =>
      some ⟨(.literal t.origin (.number (Lexeme.numberValue text)), rest), by simp⟩
    | .string value => some ⟨(.literal t.origin (.string value), rest), by simp⟩
    | .name name =>
      match rest with
      | [] => some ⟨(ofName t.origin name, []), by simp⟩
      | u :: more =>
        if u.lexeme = .openParen then
          match readArguments more with
          | none => none
          | some ⟨(args, left), h⟩ => some ⟨(.call t.origin name args, left), by simp at h ⊢; omega⟩
        else some ⟨(ofName t.origin name, u :: more), by simp⟩
    | .openParen =>
      match readLevel .or rest with
      | none => none
      | some ⟨(e, left), h⟩ =>
        match left with
        | [] => none
        | u :: left =>
          if u.lexeme = .closeParen then some ⟨(e, left), by simp at h ⊢; omega⟩ else none
    | _ => none
termination_by (ts.length, 0)

/-- The arguments of a call after its opening parenthesis, and the closing one. -/
def readArguments (ts : List Token) : Option (ReadSome (List Expr) ts) :=
  match ts with
  | [] => none
  | t :: rest =>
    if t.lexeme = .closeParen then some ⟨([], rest), by simp⟩
    else readArgument (t :: rest)
termination_by (ts.length, 16)

/-- One argument, and after a comma the others. -/
def readArgument (ts : List Token) : Option (ReadSome (List Expr) ts) :=
  match readLevel .or ts with
  | none => none
  | some ⟨(e, left), h⟩ =>
    match left with
    | [] => none
    | u :: left =>
      if u.lexeme = .closeParen then some ⟨([e], left), by simp at h ⊢; omega⟩
      else if u.lexeme = .comma then
        have : left.length < ts.length := by simp at h; omega
        match readArgument left with
        | none => none
        | some ⟨(es, left'), h'⟩ => some ⟨(e :: es, left'), by simp at h h' ⊢; omega⟩
      else none
termination_by (ts.length, 15)

/-- The accessors after a head: `.name`, `.*` and `[index]`. -/
def readAccessors (head : Expr) (ts : List Token) : Option (ReadSome Expr ts) :=
  match ts with
  | [] => some ⟨(head, []), Nat.le_refl _⟩
  | t :: rest =>
    if t.lexeme = .dot then
      match rest with
      | [] => none
      | u :: left =>
        match u.lexeme with
        | .property name =>
          match readAccessors (.property head.origin head name) left with
          | none => none
          | some ⟨r, hr⟩ => some ⟨r, Nat.le_succ_of_le (Nat.le_succ_of_le hr)⟩
        | .star =>
          match readAccessors (.filter head.origin head) left with
          | none => none
          | some ⟨r, hr⟩ => some ⟨r, Nat.le_succ_of_le (Nat.le_succ_of_le hr)⟩
        | _ => none
    else if t.lexeme = .openBracket then
      match readLevel .or rest with
      | none => none
      | some ⟨(key, left), h⟩ =>
        match left with
        | [] => none
        | u :: left =>
          if u.lexeme = .closeBracket then
            have : left.length < rest.length + 1 := Nat.lt_succ_of_lt (Nat.lt_of_succ_lt h)
            match readAccessors (.index head.origin head key) left with
            | none => none
            | some ⟨r, hr⟩ => some ⟨r, Nat.le_of_lt (Nat.lt_of_le_of_lt hr this)⟩
          else none
    else some ⟨(head, t :: rest), Nat.le_refl _⟩
termination_by (ts.length, 0)

end

/-- The expression that all the tokens together are. -/
def ofTokens? (ts : List Token) : Option Expr :=
  match readLevel .or ts with
  | some ⟨(e, []), _⟩ => some e
  | _ => none

/-- Why a text is no expression. -/
inductive ParseError where
  /-- The text is not in the language. -/
  | notAnExpression
  /-- The text is in the language, but the hexadecimal number at this place is too large. -/
  | numberTooLarge (origin : Origin) (numeral : String)
  deriving DecidableEq, Repr

/-- The message of an error that has one. -/
def ParseError.message : ParseError → String
  | notAnExpression => "invalid expression"
  | numberTooLarge o numeral =>
    s!"invalid expression at {o.line}:{o.column}: malformed parse tree near `{numeral}`"

/-- Whether a numeral is hexadecimal and at least `2 ^ 63`. -/
def tooLarge : List Char → Bool
  | '0' :: 'x' :: digits => Nat.pow 2 63 ≤ Text.hexValue digits
  | _ => false

/-- The complaint about a token that is a number too large. -/
def complaint? (t : Token) : Option ParseError :=
  match t.lexeme with
  | .number text => if tooLarge text then some (.numberTooLarge t.origin (String.ofList text)) else none
  | _ => none

/-- Reads an expression up to its ending, and the characters that are left after it. -/
def parseUpTo (ending : Ending) (cs : List Char) : Except ParseError (Expr × List Char) :=
  match Token.scan ending false .start cs with
  | none => .error .notAnExpression
  | some (tokens, rest) =>
    match ofTokens? tokens with
    | none => .error .notAnExpression
    | some e =>
      match tokens.findSome? complaint? with
      | some err => .error err
      | none => .ok (e, rest)

theorem length_parseUpTo {ending : Ending} {cs rest : List Char} {e : Expr}
    (h : parseUpTo ending cs = .ok (e, rest)) : rest.length ≤ cs.length := by
  unfold parseUpTo at h
  split at h
  · cases h
  · rename_i tokens r hscan
    split at h
    · cases h
    · split at h <;> cases h
      exact Token.length_scan hscan

/-- Reads a text that is one expression. -/
def parse (text : String) : Except ParseError Expr :=
  (parseUpTo .text text.toList).map (·.1)

/-- Reads the expression at the front of a text that follows a fragment's opening, and the number of
    bytes up to the end of the closing braces. -/
def parseFragment (body : String) : Except ParseError (Expr × Nat) :=
  (parseUpTo .braces body.toList).map fun (e, rest) =>
    (e, Text.byteSize body.toList - Text.byteSize rest)

end Expr

end WorkflowAudit
