import WorkflowAudit.Yaml.CharClass

/-!
The layout of a document: rows, columns and indentation. A reader moves a cursor from token to token;
between two tokens lie blanks, line ends and comments. Whether a token may stand where it does depends
on its row and column and on the columns of the collections that are open around it.
-/

namespace WorkflowAudit.Yaml

/-- A place in the text and what follows it. A carriage return and a line feed each begin a row, and
    each character fills a column. -/
structure Cursor where
  rest : List Char
  index : Nat
  row : Nat
  col : Nat

namespace Cursor

/-- The cursor after one character. -/
def next (c : Cursor) : Cursor :=
  match c.rest with
  | [] => c
  | x :: rest =>
    if isBreak x then ⟨rest, c.index + 1, c.row + 1, 0⟩ else ⟨rest, c.index + 1, c.row, c.col + 1⟩

/-- The cursor after `n` characters that all stand on its row. -/
def along (c : Cursor) (n : Nat) : Cursor :=
  ⟨c.rest.drop n, c.index + n, c.row, c.col + n⟩

/-- The character at the cursor. -/
def char? (c : Cursor) : Option Char :=
  c.rest.head?

end Cursor

/-- What an indented block is. -/
inductive IndentKind where
  | root | map | seq | text
  deriving DecidableEq, Repr

/-- An open block and its column; the document itself is at column `-1`. -/
structure Indent where
  kind : IndentKind
  col : Int
  deriving DecidableEq, Repr

/-- What a reader of a document keeps: the end of the last token, the open blocks from the innermost,
    and the first place on the current row where a key may begin, with a mark for tabs before it. -/
structure Layout where
  cursor : Cursor
  indents : List Indent
  keyRow : Option Nat
  keyCol : Nat
  keyTab : Bool

/-- What lies ahead: the next character that is neither blank nor part of a comment, whether it stands
    on a later row than the last token, how many spaces begin its row, and whether a tab was met. -/
structure Look where
  cursor : Cursor
  newRow : Bool
  spaces : Nat
  tab : Bool

namespace Layout

/-- The layout at the beginning of a text. A byte order mark there takes no column. -/
def ofText (cs : List Char) : Layout :=
  let cursor : Cursor := match cs with
    | '\ufeff' :: rest => ⟨rest, 1, 0, 0⟩
    | _ => ⟨cs, 0, 0, 0⟩
  ⟨cursor, [⟨.root, -1⟩], none, 0, false⟩

/-- The column of the innermost open block. -/
def column (s : Layout) : Int :=
  match s.indents with
  | i :: _ => i.col
  | [] => -1

/-- The column of the block around the innermost one. -/
def outerColumn (s : Layout) : Int :=
  match s.indents with
  | _ :: i :: _ => i.col
  | _ => -1

/-- The kind of the innermost open block. -/
def kind (s : Layout) : IndentKind :=
  match s.indents with
  | i :: _ => i.kind
  | [] => .root

end Layout

/-- Skips blanks, line ends and comments. A comment is one only at the beginning of a row, on a later
    row than the last token, or after a blank. `row` and `col` are the end of the last token. -/
def skipGap (comments : Bool) (row col : Nat) (index r c spaces : Nat) (tab : Bool) :
    List Char → Look
  | [] => ⟨⟨[], index, r, c⟩, row < r, spaces, tab⟩
  | x :: rest =>
    if x = ' ' then
      skipGap comments row col (index + 1) r (c + 1) (if tab then spaces else spaces + 1) tab rest
    else if x = '\t' then skipGap comments row col (index + 1) r (c + 1) spaces true rest
    else if isBreak x then skipGap comments row col (index + 1) (r + 1) 0 0 false rest
    else if comments && x = '#' && (c = 0 || r ≠ row || col < c) then
      let n := (rest.takeWhile fun y => !isBreak y && y ≠ '\x00').length
      skipGap comments r (c + 1 + n) (index + 1 + n) r (c + 1 + n) 0 false (rest.drop n)
    else ⟨⟨x :: rest, index, r, c⟩, row < r, spaces, tab⟩
termination_by cs => cs.length

namespace Layout

/-- What lies ahead of the last token. -/
def look (s : Layout) : Look :=
  let c := s.cursor
  skipGap true c.row c.col c.index c.row c.col 0 false c.rest

/-- What lies ahead inside quotes, where there are no comments. -/
def lookQuoted (s : Layout) : Look :=
  let c := s.cursor
  skipGap false c.row c.col c.index c.row c.col 0 false c.rest

end Layout

/-- The three hyphens or dots that part documents, followed by white. -/
def markerAhead (cs : List Char) : Bool :=
  match cs with
  | a :: b :: c :: rest => a = b && b = c && (a = '-' || a = '.') && whiteAhead rest
  | _ => false

namespace Look

/-- The text has ended. -/
def atEnd (l : Look) : Bool :=
  match l.cursor.rest with
  | [] => true
  | c :: _ => c = '\x00'

/-- A marker that parts documents stands here, at the beginning of a row. -/
def atMarker (l : Look) : Bool :=
  l.cursor.col = 0 && markerAhead l.cursor.rest

/-- It stands on a later row, and deeper than the innermost block. -/
def isDeeper (l : Look) (s : Layout) : Bool :=
  l.newRow && s.column < l.spaces

/-- It stands on a later row, at the column of the innermost block. -/
def isAligned (l : Look) (s : Layout) : Bool :=
  l.newRow && s.column = l.spaces && !l.tab

/-- It stands where a token inside the innermost block may stand. -/
def isInside (l : Look) (s : Layout) : Bool :=
  !l.newRow || l.isDeeper s

/-- The innermost block ends before it: a sequence that stands at its parent's column ends before
    anything but another item, other collections end at or before their parent's column, a block of
    text at its own; the end of the text and markers end all. -/
def closes (l : Look) (s : Layout) : Bool :=
  s.kind != .root &&
    (l.atEnd || l.atMarker ||
      (l.cursor.col ≤ s.column && !l.tab &&
        (if s.column = s.outerColumn && s.kind = .seq then
          l.cursor.col < s.column || l.cursor.char? != some '-'
        else l.cursor.col ≤ s.outerColumn || s.kind = .text)))

/-- The character ahead, when white follows it. -/
def isMark (l : Look) (c : Char) : Bool :=
  match l.cursor.rest with
  | x :: rest => x = c && whiteAhead rest
  | [] => false

/-- The character ahead is this one. -/
def isChar (l : Look) (c : Char) : Bool :=
  l.cursor.char? = some c

end Look

/-- A step that reads a part of the document, or finds it malformed. -/
abbrev Reader := StateT Layout Option

namespace Reader

/-- What lies ahead. -/
def look : Reader Look :=
  return (← get).look

/-- Moves the end of the last token. -/
def moveTo (c : Cursor) : Reader Unit :=
  modify fun s => { s with cursor := c }

/-- Opens a block. -/
def openBlock (kind : IndentKind) (col : Int) : Reader Unit :=
  modify fun s => { s with indents := ⟨kind, col⟩ :: s.indents }

/-- Closes the innermost block. -/
def closeBlock : Reader Unit :=
  modify fun s => { s with indents := s.indents.drop 1 }

/-- Goes on only if the condition holds. -/
def require (b : Bool) : Reader Unit :=
  if b then pure () else failure

/-- Notes the place as the first one of its row where a key may begin. -/
def noteKey (l : Look) : Reader Unit :=
  modify fun s =>
    if s.keyRow = some l.cursor.row then s
    else { s with keyRow := some l.cursor.row, keyCol := l.cursor.col, keyTab := l.tab }

/-- Opens the mapping that an implicit key begins, unless the key belongs to the innermost block. -/
def openForKey : Reader Unit := do
  let s ← get
  if s.column ≠ s.keyCol then
    require (!s.keyTab)
    openBlock .map s.keyCol

end Reader

end WorkflowAudit.Yaml
