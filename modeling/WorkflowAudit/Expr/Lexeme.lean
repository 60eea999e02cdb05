import WorkflowAudit.Expr.Basic

/-!
The words of the expression language. A text is cut from left to right, always taking the longest
word that fits; blanks between words carry no meaning. The one place where context matters is right
after a dot: there a run of letters, digits, `_` and `-` is a property name, whatever it begins with.
-/

namespace WorkflowAudit

/-- One word of an expression. -/
inductive Lexeme where
  | name (text : String)
  | property (text : String)
  | number (text : List Char)
  | string (value : String)
  | dot | star | comma | openParen | closeParen | openBracket | closeBracket | not
  | op (op : BinaryOp)
  deriving DecidableEq, Repr

namespace Lexeme

/-- Blanks: space, tab, carriage return and line feed. -/
def isBlank (c : Char) : Bool :=
  c = ' ' || c = '\t' || c = '\r' || c = '\n'

/-- The characters a name may begin with. -/
def isNameStart (c : Char) : Bool :=
  c.isAlpha || c = '_'

/-- The characters of a name after its first, and of a property name. -/
def isNameChar (c : Char) : Bool :=
  c.isAlphanum || c = '_' || c = '-'

/-- How many characters at the front are decimal digits. -/
def digitsWidth (cs : List Char) : Nat :=
  (cs.takeWhile Char.isDigit).length

/-- The width of a fraction, a point and at least one digit, at the front. -/
def fractionWidth : List Char → Nat
  | '.' :: cs => match digitsWidth cs with
    | 0 => 0
    | n + 1 => n + 2
  | _ => 0

/-- The width of a sign at the front. -/
def signWidth : List Char → Nat
  | '+' :: _ | '-' :: _ => 1
  | _ => 0

/-- The width of an exponent, `e` or `E`, a sign perhaps, and at least one digit, at the front. -/
def exponentWidth : List Char → Nat
  | e :: cs =>
    if e = 'e' || e = 'E' then
      match digitsWidth (cs.drop (signWidth cs)) with
      | 0 => 0
      | n + 1 => signWidth cs + n + 2
    else 0
  | [] => 0

/-- The width of a fraction and an exponent that follow the digits of a number. -/
def tailWidth (cs : List Char) : Nat :=
  let fraction := fractionWidth cs
  fraction + exponentWidth (cs.drop fraction)

/-- The width of decimal digits at the front, with fraction and exponent. -/
def decimalWidth (cs : List Char) : Nat :=
  digitsWidth cs + tailWidth (cs.drop (digitsWidth cs))

/-- How many hexadecimal digits follow when `c` and `x` announce them. -/
def hexWidth : (c : Char) → List Char → Nat
  | '0', 'x' :: ds => (ds.takeWhile Text.isHexDigit).length
  | _, _ => 0

/-- The width of a number that begins with the digit `c`, beyond that digit: `0x` and hexadecimal
    digits, or decimal digits with fraction and exponent. -/
def numberWidth (c : Char) (cs : List Char) : Nat :=
  match hexWidth c cs with
  | 0 => decimalWidth cs
  | n + 1 => n + 2

/-- The value of a string after its opening quote, where a doubled quote stands for one, and the
    number of characters up to and including the closing quote. -/
def stringBody : List Char → Option (List Char × Nat)
  | '\'' :: '\'' :: cs => (stringBody cs).map fun (v, n) => ('\'' :: v, n + 2)
  | '\'' :: _ => some ([], 1)
  | c :: cs => (stringBody cs).map fun (v, n) => (c :: v, n + 1)
  | [] => none

/-- The negative number whose sign stands before the characters, and how many of them belong to it. -/
def negative? : List Char → Option (Lexeme × Nat)
  | c :: cs =>
    if c.isDigit then some (number ('-' :: c :: cs.take (decimalWidth cs)), decimalWidth cs + 1)
    else none
  | [] => none

/-- The sign that begins with `c`, and how many of the characters after `c` belong to it. -/
def symbol? : (c : Char) → List Char → Option (Lexeme × Nat)
  | '.', _ => some (dot, 0)
  | '*', _ => some (star, 0)
  | ',', _ => some (comma, 0)
  | '(', _ => some (openParen, 0)
  | ')', _ => some (closeParen, 0)
  | '[', _ => some (openBracket, 0)
  | ']', _ => some (closeBracket, 0)
  | '|', '|' :: _ => some (op .or, 1)
  | '&', '&' :: _ => some (op .and, 1)
  | '=', '=' :: _ => some (op .eq, 1)
  | '!', '=' :: _ => some (op .ne, 1)
  | '!', _ => some (not, 0)
  | '>', '=' :: _ => some (op .ge, 1)
  | '<', '=' :: _ => some (op .le, 1)
  | '>', _ => some (op .gt, 0)
  | '<', _ => some (op .lt, 0)
  | _, _ => none

/-- The lexeme that begins with `c`, and how many of the characters after `c` belong to it. -/
def read? (afterDot : Bool) (c : Char) (cs : List Char) : Option (Lexeme × Nat) :=
  if afterDot && isNameChar c then
    let rest := cs.takeWhile isNameChar
    some (property (String.ofList (c :: rest)), rest.length)
  else if isNameStart c then
    let rest := cs.takeWhile isNameChar
    some (name (String.ofList (c :: rest)), rest.length)
  else if c.isDigit then
    let n := numberWidth c cs
    some (number (c :: cs.take n), n)
  else if c = '-' then negative? cs
  else if c = '\'' then (stringBody cs).map fun (v, n) => (string (String.ofList v), n)
  else symbol? c cs

end Lexeme

/-- A lexeme and the place where it begins. -/
structure Token where
  lexeme : Lexeme
  origin : Origin
  deriving DecidableEq, Repr

/-- Where the tokens of a text end: with the text, or with two closing braces. -/
inductive Ending where
  | text | braces
  deriving DecidableEq, Repr

/-- What is left of a text, if its tokens end at its front. -/
def Ending.rest? : Ending → List Char → Option (List Char)
  | text, [] => some []
  | braces, '\x7d' :: '\x7d' :: rest => some rest
  | _, _ => none

theorem Ending.length_rest? {ending : Ending} {cs rest : List Char}
    (h : ending.rest? cs = some rest) : rest.length ≤ cs.length := by
  unfold Ending.rest? at h
  split at h <;> cases h
  · exact Nat.le_refl _
  · simp only [List.length_cons]; omega

namespace Token

/-- Cuts a text into tokens up to their ending; what is left comes after the ending. Nothing if some
    character before it begins no lexeme, or if there is no ending. -/
def scan (ending : Ending) (afterDot : Bool) (at_ : Origin) (cs : List Char) :
    Option (List Token × List Char) :=
  match ending.rest? cs with
  | some rest => some ([], rest)
  | none =>
    match cs with
    | [] => none
    | c :: cs =>
      if Lexeme.isBlank c then scan ending afterDot (at_.advance c) cs
      else match Lexeme.read? afterDot c cs with
        | none => none
        | some (lexeme, n) =>
          (scan ending (lexeme == .dot) (at_.advanceAll (c :: cs.take n)) (cs.drop n)).map
            fun (tokens, rest) => (⟨lexeme, at_⟩ :: tokens, rest)
termination_by cs.length
decreasing_by all_goals (simp only [List.length_cons, List.length_drop]; omega)

theorem length_scan {ending : Ending} {afterDot : Bool} {at_ : Origin} {cs rest : List Char}
    {tokens : List Token} (h : scan ending afterDot at_ cs = some (tokens, rest)) :
    rest.length ≤ cs.length := by
  fun_induction scan ending afterDot at_ cs generalizing tokens rest with
  | case1 afterDot at_ cs r hr =>
    cases h
    exact Ending.length_rest? hr
  | case2 => cases h
  | case3 afterDot at_ c cs _ hr ih =>
    exact Nat.le_succ_of_le (ih h)
  | case4 => cases h
  | case5 afterDot at_ c cs hb lexeme n hread hr ih =>
    obtain ⟨⟨ts, r⟩, hs, he⟩ := Option.map_eq_some_iff.1 h
    cases he
    have := ih hs
    simp only [List.length_drop] at this
    simp only [List.length_cons]
    omega

end Token

end WorkflowAudit
