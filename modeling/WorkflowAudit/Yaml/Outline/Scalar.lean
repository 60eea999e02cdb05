import WorkflowAudit.Yaml.Layout
import WorkflowAudit.Yaml.Outline
import WorkflowAudit.Text.Ascii

/-!
Where scalars end. A plain scalar ends with its last visible character before a comment, a colon that
marks a key, or a row that is not deeper than the block around it; a quoted one at its closing quote;
a block of text before the first row that is not deeper than the block.
-/

namespace WorkflowAudit.Yaml

/-! ### Plain scalars -/

/-- Whether a plain scalar begins with `c`. -/
def beginsPlain (inFlow : Bool) (c : Char) (rest : List Char) : Bool :=
  (isVisible c && !isIndicator c) ||
    ((c = '-' || c = '?' || c = ':') && match rest with
      | d :: _ => isPlainSafe inFlow d
      | [] => false)

/-- How far a plain scalar reaches on a row: the number of characters up to its last visible one, and
    the number looked at. `#` belongs to it only right after a visible character, and `:` only right
    before one. -/
def plainRow (inFlow afterVisible : Bool) (seen mark : Nat) : List Char → Nat × Nat
  | [] => (mark, seen)
  | c :: rest =>
    if c = ':' then
      match rest with
      | d :: _ =>
        if isPlainSafe inFlow d then plainRow inFlow true (seen + 1) (seen + 1) rest
        else (mark, seen)
      | [] => (mark, seen)
    else if c = '#' && !afterVisible then (mark, seen)
    else if isPlainSafe inFlow c then plainRow inFlow true (seen + 1) (seen + 1) rest
    else if isBlank c then plainRow inFlow false (seen + 1) mark rest
    else (mark, seen)

/-- The cursor after blanks and line ends. -/
def Cursor.skipWhite : Cursor → Cursor
  | ⟨c :: rest, index, row, col⟩ =>
    if isBreak c then skipWhite ⟨rest, index + 1, row + 1, 0⟩
    else if isBlank c then skipWhite ⟨rest, index + 1, row, col + 1⟩
    else ⟨c :: rest, index, row, col⟩
  | c => c
termination_by c => c.rest.length

/-- The end of a plain scalar that was read up to `seen` and whose last visible character so far ends
    at `mark`: it goes on over rows that are deeper than the block around it. -/
def plainEnd (inFlow : Bool) (column : Int) (mark : Cursor) : Nat → Cursor → Cursor
  | 0, _ => mark
  | fuel + 1, seen =>
    match seen.char? with
    | some c =>
      if isBreak c then
        let at_ := seen.skipWhite
        if at_.rest.isEmpty || at_.char? = some '\x00' || at_.col ≤ column ||
            (at_.col = 0 && markerAhead at_.rest) then mark
        else
          let (m, n) := plainRow inFlow false 0 0 at_.rest
          plainEnd inFlow column (if m = 0 then mark else at_.along m) fuel (at_.along n)
      else mark
    | none => mark

/-- Reads a plain scalar. -/
def readPlain (inFlow : Bool) (l : Look) : Reader Outline := do
  match l.cursor.rest with
  | c :: rest =>
    Reader.require (beginsPlain inFlow c rest)
    let (m, n) := plainRow inFlow true 1 1 rest
    let column := (← get).column
    let stop := plainEnd inFlow column (l.cursor.along m) (rest.length + 1) (l.cursor.along n)
    Reader.moveTo stop
    return .scalar .plain l.cursor.index stop.index
  | [] => failure

/-! ### Quoted scalars -/

/-- The width of an escape after its backslash; none for a line end, whose width is not part of it. -/
def escapeWidth? : List Char → Option Nat
  | [] => none
  | c :: rest =>
    if isBreak c then some 0
    else if "0abt\tnvref \"/\\N_LP".toList.contains c then some 1
    else
      let digits := if c = 'x' then 2 else if c = 'u' then 4 else if c = 'U' then 8 else 0
      if digits ≠ 0 && (rest.take digits).length = digits && (rest.take digits).all Text.isHexDigit
      then some (digits + 1) else none

/-- The cursor after the closing quote of a quoted scalar. Its rows after the first are deeper than
    the block around it. -/
def quotedEnd? (double : Bool) (s : Layout) : Nat → Cursor → Option Cursor
  | 0, _ => none
  | fuel + 1, c =>
    let l := { s with cursor := c }.lookQuoted
    if !l.isInside s then none
    else match l.cursor.rest with
      | [] => none
      | x :: rest =>
        if double && x = '"' then some (l.cursor.along 1)
        else if double && x = '\\' then
          match escapeWidth? rest with
          | some n => quotedEnd? double s fuel (l.cursor.along (n + 1))
          | none => none
        else if !double && x = '\'' then
          if rest.head? = some '\'' then quotedEnd? double s fuel (l.cursor.along 2)
          else some (l.cursor.along 1)
        else if !isQuotable x || l.atMarker then none
        else
          let run := (x :: rest).takeWhile fun y =>
            isQuotable y && !(if double then y = '"' || y = '\\' else y = '\'')
          quotedEnd? double s fuel (l.cursor.along run.length)

/-- Reads a quoted scalar. -/
def readQuoted (l : Look) : Reader Outline := do
  let double := l.isChar '"'
  let s ← get
  let some stop := quotedEnd? double s (l.cursor.rest.length + 1) (l.cursor.along 1) | failure
  Reader.moveTo stop
  return .scalar (if double then .double else .single) l.cursor.index stop.index

/-! ### Blocks of text -/

/-- The indicators after `|` or `>`: an indentation digit, if there is one, and the width of all. -/
def textIndicators : List Char → Option Nat × Nat
  | c :: d :: _ =>
    let digit (x : Char) : Bool := '1' ≤ x && x ≤ '9'
    let chomp (x : Char) : Bool := x = '+' || x = '-'
    if digit c then (some (c.toNat - '0'.toNat), if chomp d then 2 else 1)
    else if chomp c then
      if digit d then (some (d.toNat - '0'.toNat), 2) else (none, 1)
    else (none, 0)
  | [c] =>
    if '1' ≤ c && c ≤ '9' then (some (c.toNat - '0'.toNat), 1)
    else if c = '+' || c = '-' then (none, 1)
    else (none, 0)
  | [] => (none, 0)

/-- The column of a block of text by its first rows: blank rows may deepen it, the first other row
    fixes it. -/
def detectColumn (column : Int) (col : Nat) : List Char → Int
  | [] => column
  | c :: rest =>
    let here : Int := col - 1
    if c = ' ' then detectColumn column (col + 1) rest
    else if isBreak c then if here < column then column else detectColumn here 0 rest
    else if c ≠ '\x00' && column < here then here
    else column

/-- The column of a block of text, from what follows the indicators. -/
def textColumn (column : Int) (explicit : Option Nat) (col : Nat) (rest : List Char) : Int :=
  match explicit with
  | some d => column + (d - 1 : Nat)
  | none =>
    let blanks := (rest.takeWhile isBlank).length
    let rest := rest.drop blanks
    let comment := if rest.head? = some '#' then
        (rest.takeWhile fun c => !isBreak c && c ≠ '\x00').length else 0
    match rest.drop comment with
    | c :: more => if isBreak c then detectColumn column 0 more
        else detectColumn column (col + blanks + comment) (c :: more)
    | [] => column

/-- The end of a comment on the row of the indicators, or the cursor itself. -/
def afterComment (c : Cursor) : Cursor :=
  let blanks := (c.rest.takeWhile isBlank).length
  let rest := c.rest.drop blanks
  if rest.head? = some '#' then
    c.along (blanks + (rest.takeWhile fun x => !isBreak x && x ≠ '\x00').length)
  else c

/-- The width of a row of text up to its last visible character. -/
def textRow (seen mark : Nat) : List Char → Nat
  | [] => mark
  | c :: rest =>
    if isVisible c then textRow (seen + 1) (seen + 1) rest
    else if isBlank c then textRow (seen + 1) mark rest
    else mark

/-- The end of a block of text: of its last row with a visible character, or of the whole text when
    nothing else follows. -/
def textEnd? (s : Layout) : Nat → Cursor → Option Cursor
  | 0, _ => none
  | fuel + 1, c =>
    let l := { s with cursor := c }.lookQuoted
    if l.atEnd then some l.cursor
    else if (l.isChar '#' && l.cursor.col ≤ s.column) || l.closes s then some c
    else if !l.isDeeper s || !l.cursor.rest.head?.any isVisible then none
    else textEnd? s fuel (l.cursor.along (textRow 0 0 l.cursor.rest))

/-- Reads a block of text. -/
def readText (l : Look) : Reader Outline := do
  let style : Style := if l.isChar '|' then .literal else .folded
  let (explicit, width) := textIndicators (l.cursor.rest.drop 1)
  let header := l.cursor.along (width + 1)
  Reader.require (whiteAhead header.rest)
  let column := textColumn (← get).column explicit header.col header.rest
  let s := { (← get) with cursor := header }
  let s := { s with indents := ⟨.text, column⟩ :: s.indents }
  let some stop := textEnd? s (header.rest.length + 1) (afterComment header) | failure
  Reader.moveTo stop
  return .scalar style l.cursor.index stop.index

end WorkflowAudit.Yaml
