/-!
Reading the characters of a data document. Line breaks are the carriage return, the line feed, both
together, the next line character, and the line and paragraph separators; the last two are kept as they
are, the others become a line feed.
-/

namespace WorkflowAudit.Yaml.Data

/-- A place in the text: what follows, its index, its line and its column, all from zero. -/
structure Cursor where
  rest : List Char
  index : Nat
  line : Nat
  column : Nat

/-- The characters that a data document may hold. -/
def isAllowed (c : Char) : Bool :=
  let n := c.toNat
  n = 0x09 || n = 0x0a || n = 0x0d || (0x20 ≤ n && n ≤ 0x7e) || n = 0x85 ||
    (0xa0 ≤ n && n ≤ 0xd7ff) || (0xe000 ≤ n && n ≤ 0xfffd) || 0x10000 ≤ n

/-- Space and tab. -/
def isBlank (c : Char) : Bool :=
  c = ' ' || c = '\t'

/-- The characters that break lines. -/
def isBreak (c : Char) : Bool :=
  c = '\n' || c = '\r' || c = '\x85' || c = '\u2028' || c = '\u2029'

/-- Blank, break or nothing at the front. -/
def blankAhead : List Char → Bool
  | [] => true
  | c :: _ => isBlank c || isBreak c

/-- Letters, digits, the low line and the hyphen. -/
def isNameChar (c : Char) : Bool :=
  c.isAlphanum || c = '_' || c = '-'

namespace Cursor

/-- The beginning of a text. -/
def ofText (cs : List Char) : Cursor :=
  ⟨cs, 0, 0, 0⟩

/-- The character here. -/
def char? (c : Cursor) : Option Char :=
  c.rest.head?

/-- This character is here. -/
def isChar (c : Cursor) (x : Char) : Bool :=
  c.rest.head? = some x

/-- The cursor after `n` characters of its line. -/
def skip (c : Cursor) (n : Nat) : Cursor :=
  ⟨c.rest.drop n, c.index + n, c.line, c.column + n⟩

/-- The line break here, as the text that stands for it, and the beginning of the next line. -/
def readBreak (c : Cursor) : List Char × Cursor :=
  match c.rest with
  | '\r' :: '\n' :: rest => (['\n'], ⟨rest, c.index + 2, c.line + 1, 0⟩)
  | x :: rest =>
    if isBreak x then
      ((if x = '\u2028' || x = '\u2029' then [x] else ['\n']), ⟨rest, c.index + 1, c.line + 1, 0⟩)
    else ([], c)
  | [] => ([], c)

/-- The cursor after the characters of its line that satisfy `p`, and these characters. -/
def span (c : Cursor) (p : Char → Bool) : List Char × Cursor :=
  let run := c.rest.takeWhile p
  (run, c.skip run.length)

/-- Three hyphens or three dots at the beginning of a line, before a blank. -/
def atMarker (c : Cursor) : Bool :=
  c.column = 0 && match c.rest with
    | a :: b :: d :: rest => a = b && b = d && (a = '-' || a = '.') && blankAhead rest
    | _ => false

end Cursor

/-- What stands between two words of a scalar: blanks of the first line, the first line break, and the
    line breaks after it. -/
structure Gap where
  blanks : List Char
  first : Option (List Char)
  others : List Char

namespace Gap

/-- No gap yet. -/
def none : Gap := ⟨[], Option.none, []⟩

/-- The gap once its first line break was written as an escape. -/
def escaped : Gap := ⟨[], some [], []⟩

/-- The text a gap stands for: blanks stay, a single line break folds into a space, and of several the
    first goes. -/
def text (g : Gap) : List Char :=
  match g.first with
  | Option.none => g.blanks
  | some b =>
    if b = ['\n'] then if g.others.isEmpty then [' '] else g.others
    else b ++ g.others

/-- Reads on to the end of a gap. A tab before column `indent` on a later line is not allowed. -/
def read? (indent : Int) : Nat → Gap → Cursor → Option (Gap × Cursor)
  | 0, _, _ => Option.none
  | fuel + 1, g, c =>
    match c.char? with
    | Option.none => some (g, c)
    | some x =>
      if isBlank x then
        if g.first.isSome && c.column < indent && x = '\t' then Option.none
        else read? indent fuel (if g.first.isSome then g else { g with blanks := g.blanks ++ [x] })
          (c.skip 1)
      else if isBreak x then
        let (b, c) := c.readBreak
        read? indent fuel
          (match g.first with
            | Option.none => ⟨[], some b, []⟩
            | some _ => { g with others := g.others ++ b }) c
      else some (g, c)

end Gap

end WorkflowAudit.Yaml.Data
