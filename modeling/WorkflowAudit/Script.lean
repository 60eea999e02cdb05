import WorkflowAudit.Pattern.Basic
import WorkflowAudit.Text.Bytes

/-!
Scripts are searched line by line, so that the start and the end of a line are those of the text a
pattern sees. A place in a script is the offset of its byte.
-/

namespace WorkflowAudit.Script

/-- The lines of a script without their line feeds. What follows the last line feed is a line only if
    it is not empty. -/
def lines : List Char → List (List Char)
  | [] => []
  | c :: rest =>
    if c = '\n' then [] :: lines rest
    else match lines rest with
      | [] => [[c]]
      | line :: others => (c :: line) :: others

/-- The offset of the first match in the lines, where the first of them begins at offset `start` and
    `find` gives the place of the match in a line. -/
def firstAmong (find : List Char → Option Nat) (start : Nat) : List (List Char) → Option Nat
  | [] => none
  | line :: others =>
    match find line with
    | some place => some (start + Text.byteSize (line.take place))
    | none => firstAmong find (start + Text.byteSize line + 1) others

/-- The offset in the script of the first match in the first line that has one. -/
def firstMatch (find : List Char → Option Nat) (script : String) : Option Nat :=
  firstAmong find 0 (lines script.toList)

/-- The offset in the script where a pattern is first found. -/
def find? (p : Pattern) (script : String) : Option Nat :=
  firstMatch p.find? script

end WorkflowAudit.Script
