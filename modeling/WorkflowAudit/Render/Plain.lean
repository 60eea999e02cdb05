import WorkflowAudit.FileTree
import WorkflowAudit.Finding
import WorkflowAudit.Render.Styled
import WorkflowAudit.Script
import WorkflowAudit.Text.Split
import WorkflowAudit.Text.Width

/-!
Findings for people: each with the line of source text that it is about and a mark under the place.
-/

namespace WorkflowAudit.Render

/-! ### Source text -/

/-- A character as it is shown in a line: tabs as spaces, control characters by their pictures, and
    characters that turn the direction of text by a replacement. -/
def shownChar (c : Char) : List Char :=
  let code := c.toNat
  if c = '\t' then [' ', ' ', ' ', ' ']
  else if code < 0x20 then [Char.ofNat (0x2400 + code)]
  else if code = 0x7f then ['\u2421']
  else if code = 0x200d then []
  else if (0x202a ≤ code && code ≤ 0x202e) || (0x2066 ≤ code && code ≤ 0x2069) then ['\ufffd']
  else [c]

/-- A text as it is shown in a line. -/
def shown (cs : List Char) : List Char :=
  cs.flatMap shownChar

/-- A place in a source text: its line, and the characters of that line before it, at it and after
    it. -/
structure Snippet where
  line : Nat
  before : List Char
  marked : List Char
  after : List Char

/-- The characters from a place up to the next white space; that one character if the place is at white
    space. -/
def wordAt (cs : List Char) : List Char :=
  match cs.takeWhile fun c => !Text.isWhite c with
  | [] => cs.take 1
  | word => word

/-- The lines of a text between its line feeds. -/
def sourceLines (source : String) : List (List Char) :=
  (Text.split '\n' source).map String.toList

/-- The line without the carriage return of its line break. -/
def withoutReturn (line : List Char) : List Char :=
  match line.reverse with
  | '\r' :: rest => rest.reverse
  | _ => line

/-- The place of a position in a text; nothing if the text has no such place. -/
def snippetAt? (source : String) (p : Position) : Option Snippet := do
  guard (1 ≤ p.line && 1 ≤ p.column)
  let line ← (sourceLines source)[p.line - 1]?
  let before := Text.takeBytes (p.column - 1) line
  guard (Text.byteSize before = p.column - 1)
  let text := withoutReturn line
  let rest := text.drop before.length
  let marked := wordAt rest
  return ⟨p.line, before, marked, rest.drop marked.length⟩

/-! ### The window on a long line -/

/-- How wide a line of output can be. -/
def outputWidth : Nat := 140

/-- The columns of a source line that are shown. -/
structure Window where
  left : Nat
  right : Nat
  columns : Nat

/-- Where the white space of a line ends, and where the mark and its label are. -/
structure Extent where
  blank : Nat
  markLeft : Nat
  markRight : Nat
  labelRight : Nat
  length : Nat

/-- The window on a line: all of it if it fits, else what is around the mark. Much white space in front
    is cut off in any case. -/
def Window.ofExtent (e : Extent) (columns : Nat) : Window :=
  -- Six columns around the mark leave room for the dots that stand for what is cut off.
  let blank := e.blank - 6
  let markLeft := e.markLeft - 6
  let markRight := e.markRight + 6
  let labelRight := e.labelRight + 6
  let left := if blank > 20 then blank - 16 else 0
  let right := max e.length left
  if right - left ≤ columns then ⟨left, right, columns⟩
  else if labelRight - blank ≤ columns then ⟨blank, blank + columns, columns⟩
  else if labelRight - markLeft ≤ columns then
    let left := markLeft - (columns - (labelRight - markLeft)) / 2
    ⟨left, left + columns, columns⟩
  else if markRight - markLeft ≤ columns then
    let left := markLeft - (columns - (markRight - markLeft)) / 5 * 2
    ⟨left, left + columns, columns⟩
  else ⟨markLeft, markRight, columns⟩

/-- Drops characters until `n` columns are gone, and says how many were. -/
def dropColumns (n : Nat) : Nat → List Char → List Char × Nat
  | gone, [] => ([], gone)
  | gone, c :: rest =>
    if gone < n then dropColumns n (gone + Text.charWidth c) rest else (c :: rest, gone)

/-- The characters that fit in `n` columns. -/
def takeColumns (n : Nat) : Nat → List Char → List Char
  | _, [] => []
  | taken, c :: rest =>
    let taken := taken + Text.charWidth c
    if taken ≤ n then c :: takeColumns n taken rest else []

/-- What stands for text that is cut off. -/
def dots : StyledLine := .ofText .frame ['.', '.', '.']

/-- The part of a line that a window shows, with dots where it is cut, and the column of the line that
    the part starts at. -/
def Window.cut (w : Window) (line : List Char) : StyledLine × Nat :=
  let length := Text.width line
  let left := min w.left length
  let right := if length - w.left ≤ w.columns then length else min length w.right
  let (rest, skipped) := dropColumns left 0 line
  let code := takeColumns (right - left) 0 rest
  let start := max left skipped
  let (shownCode, start) :=
    if w.left = 0 then (StyledLine.ofText .plain code, start)
    else
      let (kept, taken) := dropColumns 3 0 code
      (StyledLine.put (.ofText .plain (List.replicate taken ' ' ++ kept)) 0 dots,
        start - (taken - 3))
  if length ≤ right then (shownCode, start)
  else
    let (tail, _) := dropColumns 3 0 code.reverse
    (shownCode.put (shownCode.length - (code.length - tail.length)) dots, start)

/-! ### Findings -/

/-- The lines of the heading: the kind of finding, the rule and the message. -/
def headingLines (f : Finding) : List StyledLine :=
  let label := ("warning[" ++ f.rule ++ "]").toList
  let indent := StyledLine.spaces (Text.width label + 2)
  match Text.split '\n' f.message with
  | [] => []
  | first :: rest =>
    (StyledLine.ofText .warning label ++ .ofText .heading (':' :: ' ' :: shown first.toList)) ::
      rest.map fun line => indent ++ .ofText .heading (shown line.toList)

/-- The lines of the source text: where it is, the line itself, and the mark under it with the name of
    the rule. -/
def snippetLines (f : Finding) (s : Snippet) : List StyledLine :=
  let number := (toString s.line).toList
  let gutter := number.length
  let bar := StyledLine.put [] (gutter + 1) (.ofText .frame ['|'])
  let place := f.shownPath ++ ":" ++ toString s.line ++ ":" ++ toString (s.before.length + 1)
  let line := shown (s.before ++ s.marked ++ s.after)
  let markLeft := Text.width (shown s.before)
  let markRight := markLeft + max 1 (Text.width (shown s.marked))
  let blank := if line.all Text.isWhite then 0 else (line.takeWhile Text.isWhite).length
  let extent : Extent :=
    ⟨blank, markLeft, markRight, markRight + f.rule.length + 1, Text.width line⟩
  let (code, start) := (Window.ofExtent extent (outputWidth - (gutter + 3))).cut line
  let mark := StyledLine.ofText .warning (List.replicate (markRight - markLeft) '^')
  let label := StyledLine.ofText .warning f.rule.toList
  [StyledLine.spaces gutter ++ .ofText .frame ['-', '-', '>', ' '] ++ .ofText .plain place.toList,
    bar,
    (bar.put 0 (.ofText .frame number)).put (gutter + 3) code,
    (bar.put (gutter + 3 + (markLeft - start)) mark).put (gutter + 4 + (markRight - start)) label]

/-- The lines for a finding without a place in the source text. -/
def noteLines (f : Finding) : List StyledLine :=
  [StyledLine.spaces 2 ++ .ofText .frame ['|'],
    StyledLine.spaces 2 ++ .ofText .frame ['=', ' '] ++ .ofText .heading ['n', 'o', 't', 'e'] ++
      .ofText .plain (": in " ++ f.shownPath).toList]

/-- A finding with its source text, if that can be read. -/
def finding (disk : Disk) (colours : Bool) (f : Finding) : String :=
  let snippet := (disk.read f.shownPath).toOption.bind (snippetAt? · f.position)
  let body := match snippet with
    | some s => snippetLines f s
    | none => noteLines f
  "\n".intercalate ((headingLines f ++ body).map (·.text colours)) ++ "\n\n"

/-- Findings, and how many there are. -/
def plain (disk : Disk) (colours : Bool) (findings : List Finding) : String :=
  let count := green colours (toString findings.length)
  let summary := match findings with
    | [] => green colours "No findings to report. Good job!"
    | [_] => count ++ " finding"
    | _ => count ++ " findings"
  String.join (findings.map (finding disk colours)) ++ summary ++ "\n"

end WorkflowAudit.Render
