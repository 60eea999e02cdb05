import WorkflowAudit.Text.Position
import WorkflowAudit.Text.Blank
import WorkflowAudit.Yaml.Outline

/-!
Where the characters of a decoded scalar come from. Value and source are read side by side: a character
of the value comes from the same character of the source, from an escape, or from a folded line break;
white space of the source that has no counterpart is passed over. The places are kept as runs, in which
each byte of the value stands one column after the byte before.
-/

namespace WorkflowAudit.Yaml

/-- The part of a scalar's source that is still to be matched, and where it begins. -/
structure SourceText where
  rest : List Char
  position : Position

namespace SourceText

/-- Passes over one character. -/
def bump (s : SourceText) : SourceText :=
  match s.rest with
  | [] => s
  | c :: rest => ⟨rest, s.position.advance c⟩

/-- Passes over `n` characters, or all there are. -/
def skip : Nat → SourceText → SourceText
  | 0, s => s
  | n + 1, s => skip n s.bump

/-- Passes over spaces and tabs. -/
def skipBlanks : List Char → Position → SourceText
  | c :: rest, p =>
    if c = ' ' || c = '\t' then skipBlanks rest (p.advance c) else ⟨c :: rest, p⟩
  | [], p => ⟨[], p⟩

end SourceText

theorem SourceText.length_skipBlanks (cs : List Char) (p : Position) :
    (SourceText.skipBlanks cs p).rest.length ≤ cs.length := by
  induction cs generalizing p with
  | nil => simp [SourceText.skipBlanks]
  | cons c rest ih =>
    simp only [SourceText.skipBlanks]
    split
    · exact Nat.le_succ_of_le (ih _)
    · exact Nat.le_refl _

/-- The number of characters after the letter of an escape. -/
def escapeLength : Char → Nat
  | 'x' => 2
  | 'u' => 4
  | 'U' => 8
  | _ => 0

/-- The place that a character `c` of the value comes from, and the source after it. -/
def locate (style : Style) (c : Char) (s : SourceText) : Position × SourceText :=
  match s with
  | ⟨[], p⟩ => (p, ⟨[], p⟩)
  | ⟨next :: rest, p⟩ =>
    let after : SourceText := ⟨rest, p.advance next⟩
    if style = .double ∧ next = '\\' then
      match rest with
      | [] => (p, after)
      | '\n' :: more => locate style c (SourceText.skipBlanks more ⟨p.line + 1, 1⟩)
      | letter :: _ => (p, after.bump.skip (escapeLength letter))
    else if next = c then
      (p, if style = .single ∧ c = '\'' ∧ rest.head? = some '\'' then after.bump else after)
    else if next = '\n' ∧ c = ' ' then (p, after)
    else if Text.isWhite next then locate style c after
    else if Text.isWhite c then (p, ⟨next :: rest, p⟩)
    else (p, after)
termination_by s.rest.length
decreasing_by
  all_goals simp_wf
  have := SourceText.length_skipBlanks more ⟨p.line + 1, 1⟩
  omega

/-- The places of the characters of a value, each with its byte offset. -/
def placements (style : Style) : List Char → Nat → SourceText → List (Nat × Position)
  | [], _, _ => []
  | c :: value, offset, s =>
    let (p, s) := locate style c s
    (offset, p) :: placements style value (offset + c.utf8Size) s

/-- A part of a value that stands without a gap in the source. -/
structure Run where
  offset : Nat
  position : Position
  deriving DecidableEq, Repr

namespace Run

/-- The position of a byte of the value, counted on from the beginning of the run. -/
def positionAt (r : Run) (offset : Nat) : Position :=
  ⟨r.position.line, r.position.column + (offset - r.offset)⟩

/-- The runs of the places that follow a run: those places that are not where that run puts them begin
    runs of their own. -/
def compressFrom (last : Run) : List (Nat × Position) → List Run
  | [] => []
  | (offset, p) :: rest =>
    if last.positionAt offset = p then compressFrom last rest
    else ⟨offset, p⟩ :: compressFrom ⟨offset, p⟩ rest

/-- The runs of a list of places. -/
def compress (start : Position) : List (Nat × Position) → List Run
  | [] => [⟨0, start⟩]
  | (offset, p) :: rest => ⟨offset, p⟩ :: compressFrom ⟨offset, p⟩ rest

end Run

/-- The runs of a value whose source is `body`, which begins at `start`. -/
def align (style : Style) (value body : List Char) (start : Position) : List Run :=
  Run.compress start (placements style value 0 ⟨body, start⟩)

end WorkflowAudit.Yaml
