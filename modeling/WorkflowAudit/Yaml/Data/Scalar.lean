import WorkflowAudit.Yaml.Data.Cursor
import WorkflowAudit.Text.Ascii

/-!
The values of scalars. Quoted and plain scalars fold their lines; blocks of text keep or fold them and
treat the breaks at their end as their header says.
-/

namespace WorkflowAudit.Yaml.Data

/-! ### Plain scalars -/

/-- Whether a plain scalar ends before this character. -/
def endsPlain (inFlow : Bool) (c : Char) (rest : List Char) : Bool :=
  (c = ':' && blankAhead rest) ||
    (inFlow && (c = ',' || c = '[' || c = ']' || c = '\x7b' || c = '\x7d'))

/-- A colon inside a flow collection that neither parts nor belongs to a word. -/
def isStrayColon (inFlow : Bool) (c : Char) (rest : List Char) : Bool :=
  inFlow && c = ':' && match rest with
    | d :: _ => d = ',' || d = '?' || d = '[' || d = ']' || d = '\x7b' || d = '\x7d'
    | [] => false

/-- The characters of a plain scalar up to a blank or to its end. -/
def plainWord (inFlow : Bool) : List Char → Option (List Char)
  | [] => some []
  | c :: rest =>
    if isBlank c || isBreak c then some []
    else if isStrayColon inFlow c rest then none
    else if endsPlain inFlow c rest then some []
    else (plainWord inFlow rest).map (c :: ·)

/-- Reads a plain scalar: its value, where it ends, and whether it ran over a line break. -/
def plain? (inFlow : Bool) (indent : Int) :
    Nat → List Char → Gap → Cursor → Option (List Char × Cursor × Bool)
  | 0, _, _, _ => none
  | fuel + 1, value, gap, c =>
    let broken := gap.first.isSome
    if c.atMarker || c.isChar '#' then some (value, c, broken)
    else match plainWord inFlow c.rest with
      | none => none
      | some word =>
        let value := if word.isEmpty then value else value ++ gap.text ++ word
        let gap := if word.isEmpty then gap else Gap.none
        let c := c.skip word.length
        if !(c.char?.any fun x => isBlank x || isBreak x) then some (value, c, gap.first.isSome)
        else match Gap.read? indent (c.rest.length + 1) gap c with
          | none => none
          | some (gap, c) =>
            if !inFlow && c.column < indent then some (value, c, gap.first.isSome)
            else plain? inFlow indent fuel value gap c

/-! ### Quoted scalars -/

/-- The character that a one-letter escape stands for. -/
def simpleEscape? : Char → Option Char
  | '0' => some '\x00'
  | 'a' => some '\x07'
  | 'b' => some '\x08'
  | 't' => some '\t'
  | '\t' => some '\t'
  | 'n' => some '\n'
  | 'v' => some '\x0b'
  | 'f' => some '\x0c'
  | 'r' => some '\r'
  | 'e' => some '\x1b'
  | ' ' => some ' '
  | '"' => some '"'
  | '/' => some '/'
  | '\\' => some '\\'
  | 'N' => some '\x85'
  | '_' => some '\xa0'
  | 'L' => some '\u2028'
  | 'P' => some '\u2029'
  | _ => none

/-- The number of hexadecimal digits after an escape's letter. -/
def hexEscapeDigits : Char → Nat
  | 'x' => 2
  | 'u' => 4
  | 'U' => 8
  | _ => 0

/-- The character that an escape stands for, and the escape's width after its backslash. -/
def escape? : List Char → Option (Char × Nat)
  | [] => none
  | c :: rest =>
    match simpleEscape? c with
    | some x => some (x, 1)
    | none =>
      let n := hexEscapeDigits c
      let digits := rest.take n
      let code := Text.hexValue digits
      if n = 0 || digits.length ≠ n || !digits.all Text.isHexDigit then none
      else if (0xd800 ≤ code && code ≤ 0xdfff) || 0x10ffff < code then none
      else some (Char.ofNat code, n + 1)

/-- The value of a quoted scalar up to a blank, to an escaped line break or to its closing quote, the
    width of that part, and whether it ends with an escaped line break. -/
def quotedWord (double : Bool) : Nat → List Char → Option (List Char × Nat × Bool)
  | 0, _ => none
  | _, [] => some ([], 0, false)
  | fuel + 1, c :: rest =>
    let more (x : Char) (n : Nat) :=
      (quotedWord double fuel ((c :: rest).drop n)).map fun (v, w, e) => (x :: v, w + n, e)
    if isBlank c || isBreak c then some ([], 0, false)
    else if !double && c = '\'' then
      if rest.head? = some '\'' then more '\'' 2 else some ([], 0, false)
    else if double && c = '"' then some ([], 0, false)
    else if double && c = '\\' then
      if rest.head?.any isBreak then some ([], 1, true)
      else match escape? rest with
        | none => none
        | some (x, n) => more x (n + 1)
    else more c 1

/-- Reads a quoted scalar after its opening quote: its value and where it ends. -/
def quoted? (double : Bool) : Nat → List Char → Cursor → Option (List Char × Cursor)
  | 0, _, _ => none
  | fuel + 1, value, c =>
    if c.atMarker then none
    else match quotedWord double (c.rest.length + 1) c.rest with
      | none => none
      | some (word, width, escaped) =>
        let value := value ++ word
        let c := c.skip width
        if escaped then
          let (_, c) := c.readBreak
          match Gap.read? 0 (c.rest.length + 1) Gap.escaped c with
          | none => none
          | some (gap, c) => quoted? double fuel (value ++ gap.text) c
        else match c.char? with
          | none => none
          | some x =>
            if isBlank x || isBreak x then
              match Gap.read? 0 (c.rest.length + 1) Gap.none c with
              | none => none
              | some (gap, c) => quoted? double fuel (value ++ gap.text) c
            else some (value, c.skip 1)

/-! ### Blocks of text -/

/-- What becomes of the line breaks at the end of a block of text. -/
inductive Chomping where
  | strip | clip | keep
  deriving DecidableEq

/-- The header of a block of text after its first mark: the treatment of its end, an indentation, and
    the beginning of the next line. -/
def textHeader? (c : Cursor) : Option (Chomping × Option Nat × Cursor) :=
  let chomp? : Option Char → Option Chomping
    | some '+' => some .keep
    | some '-' => some .strip
    | _ => none
  let digit? : Option Char → Option Nat
    | some x => if x.isDigit then some (x.toNat - '0'.toNat) else none
    | none => none
  let (chomping, indent, c) :=
    match chomp? c.char? with
    | some k => match digit? (c.skip 1).char? with
      | some d => (k, some d, c.skip 2)
      | none => (k, none, c.skip 1)
    | none => match digit? c.char? with
      | some d => match chomp? (c.skip 1).char? with
        | some k => (k, some d, c.skip 2)
        | none => (.clip, some d, c.skip 1)
      | none => (.clip, none, c)
  let (_, c) := c.span isBlank
  let c := if c.isChar '#' then (c.span fun x => !isBreak x).2 else c
  if indent = some 0 || c.char?.any (!isBreak ·) then none
  else some (chomping, indent, c.readBreak.2)

/-- Reads the empty lines before a line of text, as long as their spaces do not reach `indent` (zero if
    it is not known yet): the breaks, the deepest column, and where the next line's text begins. -/
def textBreaks? (indent : Nat) : Nat → Nat → List Char → Cursor → Option (List Char × Nat × Cursor)
  | 0, _, _, _ => none
  | fuel + 1, deepest, breaks, c =>
    let spaces := (c.rest.takeWhile (· = ' ')).length
    let c := c.skip (if indent = 0 then spaces else min spaces (indent - c.column))
    let deepest := max deepest c.column
    if (indent = 0 || c.column < indent) && c.isChar '\t' then none
    else if c.char?.any isBreak then
      let (b, c) := c.readBreak
      textBreaks? indent fuel deepest (breaks ++ b) c
    else some (breaks, deepest, c)

/-- Reads the lines of a block of text. `lead` is the break after the line before, `breaks` those of the
    empty lines since, and `spaced` tells whether the line before began with a blank. -/
def textLines? (folded : Bool) (indent : Nat) :
    Nat → List Char → List Char → List Char → Bool → Cursor →
      Option (List Char × List Char × List Char × Cursor)
  | 0, _, _, _, _, _ => none
  | fuel + 1, value, lead, breaks, spaced, c =>
    if c.column ≠ indent || c.rest.isEmpty then some (value, lead, breaks, c)
    else
      let blank := c.char?.any isBlank
      let joint :=
        if folded && lead = ['\n'] && !spaced && !blank then if breaks.isEmpty then [' '] else []
        else lead
      let (line, c) := c.span fun x => !isBreak x
      let (lead, c) := c.readBreak
      match textBreaks? indent (c.rest.length + 1) 0 [] c with
      | none => none
      | some (next, _, c) => textLines? folded indent fuel (value ++ joint ++ breaks ++ line) lead next blank c

/-- Reads a block of text after its first mark, inside a block at column `parent`. -/
def text? (folded : Bool) (parent : Int) (c : Cursor) : Option (List Char × Cursor) := do
  let (chomping, explicit, c) ← textHeader? c
  let fuel := c.rest.length + 1
  let known : Nat := match explicit with
    | some d => if 0 ≤ parent then parent.toNat + d else d
    | none => 0
  let (breaks, deepest, c) ← textBreaks? known fuel 0 [] c
  let indent := if known = 0 then max (max deepest (parent + 1).toNat) 1 else known
  let (value, lead, breaks, c) ← textLines? folded indent fuel [] [] breaks false c
  let tail := match chomping with
    | .strip => []
    | .clip => lead
    | .keep => lead ++ breaks
  return (value ++ tail, c)

end WorkflowAudit.Yaml.Data
