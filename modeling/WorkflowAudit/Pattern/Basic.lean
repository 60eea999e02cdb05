import WorkflowAudit.Pattern.CharSet

/-!
Patterns over text and where they match.

The meaning of a pattern is the set of places where a match that begins at a given place may end
(`Pattern.ends`). A pattern is found at the first place from which it has an end, so the order in
which alternatives and repetitions are tried plays no part.
-/

namespace WorkflowAudit

/-- A condition on a place in the text that takes up no characters. -/
inductive Anchor where
  | textStart
  | textEnd
  /-- At the start of the text or after a line feed. -/
  | lineStart
  /-- At the end of the text or before a line feed. -/
  | lineEnd
  /-- As `lineStart`, with carriage returns breaking lines too. -/
  | anyLineStart
  /-- As `lineEnd`, with carriage returns breaking lines too. -/
  | anyLineEnd
  /-- Between a character of `letters` and one that is not, or the end of the text. -/
  | boundary (letters : CharSet)
  | notBoundary (letters : CharSet)
  | wordStart (letters : CharSet)
  | wordEnd (letters : CharSet)
  /-- Not after a character of `letters`. -/
  | wordStartHalf (letters : CharSet)
  /-- Not before a character of `letters`. -/
  | wordEndHalf (letters : CharSet)
  deriving Repr, DecidableEq

/-- The condition holds between the characters `before` and `after`, which are absent at the ends of
    the text. -/
def Anchor.holds (anchor : Anchor) (before after : Option Char) : Bool :=
  match anchor with
  | .textStart => before.isNone
  | .textEnd => after.isNone
  | .lineStart => before.isNone || before == some '\n'
  | .lineEnd => after.isNone || after == some '\n'
  | .anyLineStart => before.isNone || before == some '\n' || (before == some '\r' && after != some '\n')
  | .anyLineEnd => after.isNone || after == some '\r' || (after == some '\n' && before != some '\r')
  | .boundary letters => before.any letters.contains != after.any letters.contains
  | .notBoundary letters => before.any letters.contains == after.any letters.contains
  | .wordStart letters => !before.any letters.contains && after.any letters.contains
  | .wordEnd letters => before.any letters.contains && !after.any letters.contains
  | .wordStartHalf letters => !before.any letters.contains
  | .wordEndHalf letters => !after.any letters.contains

/-- A pattern. -/
inductive Pattern where
  /-- Matches without taking up a character. -/
  | empty
  /-- One character of a set. -/
  | one (set : CharSet)
  | seq (first second : Pattern)
  | alt (first second : Pattern)
  /-- At least `least` and, if given, at most `most` matches in a row. -/
  | many (body : Pattern) (least : Nat) (most : Option Nat)
  /-- A place where the condition holds. -/
  | place (anchor : Anchor)
  deriving Repr, DecidableEq

namespace Pattern

/-- The places that one more `step` leads to from some place of the list. -/
def advance (step : Nat → List Nat) (places : List Nat) : List Nat :=
  (places.flatMap step).eraseDups

/-- The places that exactly `n` steps lead to. -/
def exactly (step : Nat → List Nat) : Nat → List Nat → List Nat
  | 0, places => places
  | n + 1, places => exactly step n (advance step places)

/-- The places that at most `n` steps lead to; `seen` are those already known, `frontier` the ones
    among them whose steps have not been taken. -/
def within (step : Nat → List Nat) : Nat → List Nat → List Nat → List Nat
  | 0, seen, _ => seen
  | n + 1, seen, frontier =>
    let fresh := (advance step frontier).filter fun p => !seen.contains p
    if fresh.isEmpty then seen else within step n (seen ++ fresh) fresh

/-- The places where a match that begins at place `i` may end. Place `i` is the one before the
    character with index `i`. -/
def ends (text : Array Char) : Pattern → Nat → List Nat
  | .empty, i => [i]
  | .one set, i => if text[i]?.any set.contains then [i + 1] else []
  | .seq first second, i => advance (second.ends text) (first.ends text i)
  | .alt first second, i => (first.ends text i ++ second.ends text i).eraseDups
  | .many body least most, i =>
    let reached := exactly (body.ends text) least [i]
    let more := match most with
      | some most => most - least
      | none => text.size + 1
    within (body.ends text) more reached reached
  | .place anchor, i =>
    let before := if i = 0 then none else text[i - 1]?
    if anchor.holds before text[i]? then [i] else []

/-- The place where the first match begins. -/
def find? (p : Pattern) (text : List Char) : Option Nat :=
  (List.range (text.length + 1)).find? fun i => !(p.ends text.toArray i).isEmpty

/-- The pattern matches somewhere in the text. -/
def isIn (p : Pattern) (text : String) : Bool :=
  (p.find? text.toList).isSome

/-- The patterns one after the other. -/
def inOrder (parts : List Pattern) : Pattern :=
  parts.foldr .seq .empty

/-- One of the patterns. -/
def oneOf : List Pattern → Pattern
  | [] => .empty
  | [p] => p
  | p :: rest => .alt p (oneOf rest)

/-- The text itself. -/
def literal (s : String) : Pattern :=
  inOrder (s.toList.map fun c => .one (.single c))

/-- The text itself, in any case. -/
def literalAnyCase (s : String) : Pattern :=
  inOrder (s.toList.map fun c => .one (.anyCase (.single c)))

/-- Any number of characters of a set. -/
def run (set : CharSet) : Pattern :=
  .many (.one set) 0 none

end Pattern

end WorkflowAudit
