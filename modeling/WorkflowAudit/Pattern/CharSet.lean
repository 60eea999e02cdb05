import WorkflowAudit.Text.Blank
import WorkflowAudit.Text.CaseFold
import WorkflowAudit.Text.WordChar

/-!
Sets of characters as patterns write them: ranges, named classes, and what can be made of them.
-/

namespace WorkflowAudit

/-- A set of characters. -/
inductive CharSet where
  /-- The characters from code point `low` to code point `high`. -/
  | range (low high : Nat)
  /-- The decimal digits of all scripts. -/
  | digit
  /-- White space. -/
  | space
  /-- The characters of words. -/
  | word
  | union (a b : CharSet)
  | inter (a b : CharSet)
  | compl (a : CharSet)
  /-- The characters with a case variant in `a`. -/
  | anyCase (a : CharSet)
  deriving Repr, DecidableEq

namespace CharSet

/-- The character belongs to the set. -/
def contains : CharSet → Char → Bool
  | .range low high, c => low ≤ c.toNat && c.toNat ≤ high
  | .digit, c => Text.isDecimalDigit c
  | .space, c => Text.isWhite c
  | .word, c => Text.isWordChar c
  | .union a b, c => a.contains c || b.contains c
  | .inter a b, c => a.contains c && b.contains c
  | .compl a, c => !a.contains c
  | .anyCase a, c => (Text.caseVariants c).any a.contains

/-- The set of one character. -/
def single (c : Char) : CharSet :=
  .range c.toNat c.toNat

/-- The set without characters. -/
def none : CharSet :=
  .range 1 0

/-- The union of a list of sets. -/
def all (sets : List CharSet) : CharSet :=
  sets.foldl .union .none

/-- The characters of `a` that are not in `b`. -/
def diff (a b : CharSet) : CharSet :=
  .inter a (.compl b)

/-- The characters in exactly one of the two sets. -/
def symmDiff (a b : CharSet) : CharSet :=
  .union (diff a b) (diff b a)

/-- The characters from `low` to `high`. -/
def span (low high : Char) : CharSet :=
  .range low.toNat high.toNat

/-- The ASCII digits. -/
def asciiDigit : CharSet :=
  span '0' '9'

/-- The ASCII letters, digits and the underscore. -/
def asciiWord : CharSet :=
  all [span '0' '9', span 'A' 'Z', span 'a' 'z', single '_']

/-- ASCII white space. -/
def asciiSpace : CharSet :=
  all [.range 0x09 0x0d, single ' ']

/-- The ASCII classes that brackets can name. -/
def ofName? : String → Option CharSet
  | "alnum" => some (all [span '0' '9', span 'A' 'Z', span 'a' 'z'])
  | "alpha" => some (all [span 'A' 'Z', span 'a' 'z'])
  | "ascii" => some (.range 0x00 0x7f)
  | "blank" => some (all [single '\t', single ' '])
  | "cntrl" => some (all [.range 0x00 0x1f, .range 0x7f 0x7f])
  | "digit" => some asciiDigit
  | "graph" => some (span '!' '~')
  | "lower" => some (span 'a' 'z')
  | "print" => some (span ' ' '~')
  | "punct" => some (all [span '!' '/', span ':' '@', span '[' '\x60', span '\x7b' '~'])
  | "space" => some asciiSpace
  | "upper" => some (span 'A' 'Z')
  | "word" => some asciiWord
  | "xdigit" => some (all [span '0' '9', span 'A' 'F', span 'a' 'f'])
  | _ => Option.none

end CharSet

end WorkflowAudit
