import Mathlib
import WorkflowAudit.Yaml.Node

/-!
What stands between double quotes: ordinary characters, escapes, blanks inside a line, line breaks that
fold, and line breaks that are escaped. Each segment is written in one way and stands for one text, so
that the segments of a body give both its source and its value.
-/

namespace WorkflowAudit.Yaml

/-- A line break, with or without a carriage return. -/
inductive LineBreak where
  | lf | crlf
  deriving DecidableEq, Repr

/-- A line break as it is written. -/
def LineBreak.text : LineBreak → List Char
  | lf => ['\n']
  | crlf => ['\r', '\n']

theorem LineBreak.text_eq_cons (b : LineBreak) :
    ∃ x rest, b.text = x :: rest ∧ Data.isBreak x := by
  cases b
  · exact ⟨'\n', [], rfl, by decide⟩
  · exact ⟨'\r', ['\n'], rfl, by decide⟩

/-- Lines that hold nothing but blanks, each with its break. -/
abbrev EmptyLines := List (List Char × LineBreak)

/-- Empty lines as they are written. -/
def EmptyLines.text (lines : EmptyLines) : List Char :=
  lines.flatMap fun line => line.1 ++ line.2.text

/-- The lines do hold nothing but blanks. -/
def EmptyLines.areBlank (lines : EmptyLines) : Bool :=
  lines.all fun line => line.1.all Data.isBlank

/-- A part of a body between double quotes. -/
inductive Segment where
  /-- A character that stands for itself. -/
  | char (c : Char)
  /-- A backslash and a code that stand for a character. -/
  | escape (code : List Char) (c : Char)
  /-- Blanks inside a line. -/
  | blanks (bs : List Char)
  /-- A line break with the blanks before it, the empty lines after it, and the next indentation. -/
  | fold (before : List Char) (first : LineBreak) (empty : EmptyLines) (indent : List Char)
  /-- A line break behind a backslash, the empty lines after it, and the next indentation. -/
  | joint (first : LineBreak) (empty : EmptyLines) (indent : List Char)
  deriving DecidableEq, Repr

namespace Segment

/-- A segment as it is written. -/
def source : Segment → List Char
  | char c => [c]
  | escape code _ => '\\' :: code
  | blanks bs => bs
  | fold before first empty indent => before ++ first.text ++ empty.text ++ indent
  | joint first empty indent => '\\' :: first.text ++ empty.text ++ indent

/-- What a segment stands for. Empty lines keep their breaks; a fold without them is a space. -/
def value : Segment → List Char
  | char c => [c]
  | escape _ c => [c]
  | blanks bs => bs
  | fold _ _ empty _ => if empty.isEmpty then [' '] else List.replicate empty.length '\n'
  | joint _ empty _ => List.replicate empty.length '\n'

/-- The segments as they are written. -/
def sources (segments : List Segment) : List Char :=
  segments.flatMap source

/-- What the segments stand for. -/
def values (segments : List Segment) : List Char :=
  segments.flatMap value

/-- White space of the source that is no escape. -/
def isGap : Segment → Bool
  | blanks _ | fold .. => true
  | char _ | escape .. | joint .. => false

/-- A segment whose source ends with white space that is no escape. -/
def endsWithGap : Segment → Bool
  | blanks _ | fold .. | joint .. => true
  | char _ | escape .. => false

/-- A segment after which a line begins without indentation. -/
def beginsLine : Segment → Bool
  | fold _ _ _ indent | joint _ _ indent => indent.isEmpty
  | char _ | escape .. | blanks _ => false

/-- A segment that is what it says: an ordinary character is neither white space of a line nor a mark,
    an escape is one of those that there are, and blanks are blanks. -/
def isSound : Segment → Bool
  | char c => Data.isAllowed c && !Data.isBlank c && !Data.isBreak c && c != '"' && c != '\\'
  | escape code c => Data.escape? code = some (c, code.length)
  | blanks bs => !bs.isEmpty && bs.all Data.isBlank
  | fold before _ empty indent => before.all Data.isBlank && empty.areBlank && indent.all Data.isBlank
  | joint _ empty indent => empty.areBlank && indent.all Data.isBlank

/-- The segments are a body: each is sound, white space is not split over two of them, and no line begins
    with a document marker. -/
def wellFormed (afterGap : Bool) : List Segment → Bool
  | [] => true
  | p :: ps =>
    p.isSound && !(afterGap && p.isGap) &&
      !(p.beginsLine && (Data.Cursor.ofText (sources ps ++ ['"'])).atMarker) &&
      wellFormed p.endsWithGap ps

@[simp] theorem sources_nil : sources [] = [] := rfl

@[simp] theorem sources_cons (p : Segment) (ps : List Segment) :
    sources (p :: ps) = p.source ++ sources ps := rfl

@[simp] theorem values_nil : values [] = [] := rfl

@[simp] theorem values_cons (p : Segment) (ps : List Segment) :
    values (p :: ps) = p.value ++ values ps := rfl

/-- What a well-formed body says about its first segment and about the others. -/
structure Follows (afterGap : Bool) (p : Segment) (ps : List Segment) : Prop where
  sound : p.isSound
  parted : ¬(afterGap ∧ p.isGap)
  unmarked : p.beginsLine → (Data.Cursor.ofText (sources ps ++ ['"'])).atMarker = false
  rest : wellFormed p.endsWithGap ps

theorem follows_of_wellFormed {afterGap : Bool} {p : Segment} {ps : List Segment}
    (h : wellFormed afterGap (p :: ps)) : Follows afterGap p ps := by
  simp only [wellFormed, Bool.and_eq_true, Bool.not_eq_true', Bool.and_eq_false_iff] at h
  obtain ⟨⟨⟨hsound, hparted⟩, hmarker⟩, hrest⟩ := h
  refine ⟨hsound, ?_, fun hline => ?_, hrest⟩
  · rintro ⟨hgap, hp⟩
    rcases hparted with hparted | hparted
    · exact absurd hgap (by simp [hparted])
    · exact absurd hp (by simp [hparted])
  · rcases hmarker with hmarker | hmarker
    · exact absurd hline (by simp [hmarker])
    · exact hmarker

/-- White space begins with a blank or a line break. -/
theorem source_of_isGap {p : Segment} (hp : p.isSound) (hgap : p.isGap) :
    ∃ x rest, p.source = x :: rest ∧ (Data.isBlank x ∨ Data.isBreak x) := by
  cases p with
  | blanks bs =>
    cases bs with
    | nil => cases hp
    | cons x bs =>
      simp only [isSound, List.all_cons, Bool.and_eq_true] at hp
      exact ⟨x, bs, rfl, .inl hp.2.1⟩
  | fold before first empty indent =>
    cases before with
    | nil =>
      obtain ⟨x, rest, hfirst, hx⟩ := first.text_eq_cons
      exact ⟨x, rest ++ empty.text ++ indent, by simp [source, hfirst], .inr hx⟩
    | cons x before =>
      simp only [isSound, List.all_cons, Bool.and_eq_true] at hp
      exact ⟨x, _, rfl, .inl hp.1.1.1⟩
  | char c | escape code c | joint first empty indent => cases hgap

theorem eq_joint {p : Segment} (hends : p.endsWithGap) (hgap : ¬p.isGap) :
    ∃ first empty indent, p = joint first empty indent := by
  cases p with
  | joint first empty indent => exact ⟨first, empty, indent, rfl⟩
  | blanks bs | fold before first empty indent => exact absurd rfl hgap
  | char c | escape code c => cases hends

theorem source_length_pos {p : Segment} (hp : p.isSound) : 0 < p.source.length := by
  by_cases hgap : p.isGap
  · obtain ⟨x, rest, hsource, -⟩ := source_of_isGap hp hgap
    simp [hsource]
  · cases p with
    | char c | escape code c | joint first empty indent => simp [source]
    | blanks bs | fold before first empty indent => exact absurd rfl hgap

/-! ### Escapes -/

theorem simpleEscape?_letter {letter c : Char} (h : Data.simpleEscape? letter = some c) :
    escapeLength letter = 0 ∧ Data.isBreak letter = false ∧ Data.isAllowed letter := by
  unfold Data.simpleEscape? at h
  split at h <;> first | decide | cases h

theorem hexEscapeDigits_letter {letter : Char} (h : Data.hexEscapeDigits letter ≠ 0) :
    escapeLength letter = Data.hexEscapeDigits letter ∧ Data.isBreak letter = false ∧
      Data.isAllowed letter := by
  unfold Data.hexEscapeDigits at h ⊢
  split at h <;> first | decide | exact absurd rfl h

/-- An escape by number has as many digits as its letter asks for. -/
theorem escape?_hex {letter c : Char} {rest : List Char} {n : Nat}
    (hs : Data.simpleEscape? letter = none) (h : Data.escape? (letter :: rest) = some (c, n)) :
    n = Data.hexEscapeDigits letter + 1 ∧ Data.hexEscapeDigits letter ≠ 0 ∧
      Data.hexEscapeDigits letter ≤ rest.length ∧
      (rest.take (Data.hexEscapeDigits letter)).all Text.isHexDigit := by
  simp only [Data.escape?, hs] at h
  split at h
  · cases h
  · rename_i hcode
    split at h <;> cases h
    simp only [Bool.or_eq_true, decide_eq_true_eq, not_or, ne_eq, not_not, Bool.not_eq_true',
      Bool.not_eq_false] at hcode
    obtain ⟨⟨hne, hlen⟩, hhex⟩ := hcode
    rw [List.length_take] at hlen
    exact ⟨rfl, hne, by omega, hhex⟩

/-- What follows an escape does not change it. -/
theorem escape?_append {code : List Char} {c : Char} {n : Nat} (h : Data.escape? code = some (c, n))
    (rest : List Char) : Data.escape? (code ++ rest) = some (c, n) := by
  cases code with
  | nil => cases h
  | cons letter digits =>
    rw [List.cons_append]
    cases hs : Data.simpleEscape? letter with
    | some x =>
      simp only [Data.escape?, hs] at h ⊢
      exact h
    | none =>
      obtain ⟨-, -, hle, -⟩ := escape?_hex hs h
      simp only [Data.escape?, hs] at h ⊢
      rwa [List.take_append_of_le_length hle]

theorem isAllowed_of_isHexDigit {c : Char} (h : Text.isHexDigit c) : Data.isAllowed c := by
  have hbounds : 0x20 ≤ c.toNat ∧ c.toNat ≤ 0x7e := by
    simp only [Text.isHexDigit, Char.isDigit, Bool.or_eq_true, Bool.and_eq_true, decide_eq_true_eq,
      UInt32.le_iff_toNat_le, ge_iff_le, Char.le_def] at h
    have : c.toNat = c.val.toNat := rfl
    have : '0'.val.toNat = 48 := rfl
    have : '9'.val.toNat = 57 := rfl
    have : 'a'.val.toNat = 97 := rfl
    have : 'f'.val.toNat = 102 := rfl
    have : 'A'.val.toNat = 65 := rfl
    have : 'F'.val.toNat = 70 := rfl
    omega
  simp [Data.isAllowed, hbounds]

/-- An escape is a letter that breaks no line and the digits that belong to it. -/
theorem escape_code {code : List Char} {c : Char} (h : (escape code c).isSound) :
    ∃ letter digits, code = letter :: digits ∧ digits.length = escapeLength letter ∧
      Data.isBreak letter = false ∧ ∀ x ∈ code, Data.isAllowed x := by
  have hcode : Data.escape? code = some (c, code.length) := of_decide_eq_true h
  cases code with
  | nil => cases hcode
  | cons letter digits =>
    refine ⟨letter, digits, rfl, ?_⟩
    cases hs : Data.simpleEscape? letter with
    | some x =>
      obtain ⟨hlength, hbreak, hallowed⟩ := simpleEscape?_letter hs
      simp only [Data.escape?, hs, Option.some.injEq, Prod.mk.injEq, List.length_cons] at hcode
      obtain rfl : digits = [] := List.length_eq_zero_iff.1 (by omega)
      exact ⟨hlength.symm, hbreak, by simpa using hallowed⟩
    | none =>
      obtain ⟨hlen, hne, -, hhex⟩ := escape?_hex hs hcode
      obtain ⟨hlength, hbreak, hallowed⟩ := hexEscapeDigits_letter hne
      have hdigits : digits.length = Data.hexEscapeDigits letter := by
        simpa using hlen
      rw [← hdigits, List.take_length, List.all_eq_true] at hhex
      exact ⟨by omega, hbreak,
        List.forall_mem_cons.2 ⟨hallowed, fun x hx => isAllowed_of_isHexDigit (hhex x hx)⟩⟩

/-- An escape as it is written: no line break, and the digits that its letter asks for. -/
theorem escape_source {code : List Char} {c : Char} (h : (escape code c).isSound) :
    ∃ letter digits, (escape code c).source = '\\' :: letter :: digits ∧ letter ≠ '\n' ∧
      digits.length = escapeLength letter := by
  obtain ⟨letter, digits, rfl, hdigits, hbreak, -⟩ := escape_code h
  refine ⟨letter, digits, rfl, ?_, hdigits⟩
  rintro rfl
  exact absurd hbreak (by decide)

/-! ### Characters -/

/-- The characters that white space of a body is written with. -/
def isSpacing (x : Char) : Bool :=
  Data.isBlank x || x = '\n' || x = '\r'

theorem isSpacing_cases {x : Char} (h : isSpacing x) : x = ' ' ∨ x = '\t' ∨ x = '\n' ∨ x = '\r' := by
  simpa [isSpacing, Data.isBlank, or_assoc] using h

theorem isAllowed_of_isSpacing {x : Char} (h : isSpacing x) : Data.isAllowed x := by
  rcases isSpacing_cases h with rfl | rfl | rfl | rfl <;> decide

theorem isWhite_of_isSpacing {x : Char} (h : isSpacing x) : Text.isWhite x := by
  rcases isSpacing_cases h with rfl | rfl | rfl | rfl <;> decide

theorem not_isSpacing_of_char {c : Char} (h : (char c).isSound) : ¬isSpacing c := by
  intro hc
  rcases isSpacing_cases hc with rfl | rfl | rfl | rfl <;> exact absurd h (by decide)

theorem isSpacing_of_mem_blanks {bs : List Char} (h : bs.all Data.isBlank) {x : Char} (hx : x ∈ bs) :
    isSpacing x := by
  simp [isSpacing, List.all_eq_true.1 h x hx]

theorem isSpacing_of_mem_break {b : LineBreak} {x : Char} (h : x ∈ b.text) : isSpacing x := by
  cases b <;> simp only [LineBreak.text, List.mem_cons, List.not_mem_nil, or_false] at h
  · subst h; decide
  · rcases h with rfl | rfl <;> decide

theorem isSpacing_of_mem_lines {lines : EmptyLines} (h : lines.areBlank) {x : Char}
    (hx : x ∈ lines.text) : isSpacing x := by
  obtain ⟨line, hline, hmem⟩ := List.mem_flatMap.1 hx
  rcases List.mem_append.1 hmem with hmem | hmem
  · exact isSpacing_of_mem_blanks (List.all_eq_true.1 h line hline) hmem
  · exact isSpacing_of_mem_break hmem

theorem isSpacing_of_mem_fold {before indent : List Char} {first : LineBreak} {empty : EmptyLines}
    (hp : (fold before first empty indent).isSound) {x : Char}
    (hx : x ∈ before ++ first.text ++ empty.text ++ indent) : isSpacing x := by
  simp only [isSound, Bool.and_eq_true] at hp
  simp only [List.mem_append] at hx
  rcases hx with ((hx | hx) | hx) | hx
  · exact isSpacing_of_mem_blanks hp.1.1 hx
  · exact isSpacing_of_mem_break hx
  · exact isSpacing_of_mem_lines hp.1.2 hx
  · exact isSpacing_of_mem_blanks hp.2 hx

/-- What follows the backslash of an escaped line break could be written as a fold. -/
theorem isSound_fold_of_joint {first : LineBreak} {empty : EmptyLines} {indent : List Char}
    (h : (joint first empty indent).isSound) : (fold [] first empty indent).isSound := by
  simpa [isSound] using h

theorem isAllowed_of_mem_source {p : Segment} (hp : p.isSound) {x : Char} (hx : x ∈ p.source) :
    Data.isAllowed x := by
  cases p with
  | char c =>
    obtain rfl : x = c := List.mem_singleton.1 hx
    simp only [isSound, Bool.and_eq_true] at hp
    exact hp.1.1.1.1
  | escape code c =>
    obtain ⟨-, -, -, -, -, hallowed⟩ := escape_code hp
    rcases List.mem_cons.1 hx with rfl | hx
    · decide
    · exact hallowed x hx
  | blanks bs =>
    simp only [isSound, Bool.and_eq_true] at hp
    exact isAllowed_of_isSpacing (isSpacing_of_mem_blanks hp.2 hx)
  | fold before first empty indent => exact isAllowed_of_isSpacing (isSpacing_of_mem_fold hp hx)
  | joint first empty indent =>
    rcases List.mem_cons.1 hx with rfl | hx
    · decide
    · exact isAllowed_of_isSpacing (isSpacing_of_mem_fold (isSound_fold_of_joint hp) hx)

/-- A body holds only characters that a document may hold. -/
theorem isAllowed_of_mem_sources {afterGap : Bool} {ps : List Segment} (h : wellFormed afterGap ps)
    {x : Char} (hx : x ∈ sources ps) : Data.isAllowed x := by
  induction ps generalizing afterGap with
  | nil => cases hx
  | cons p ps ih =>
    have hfollows := follows_of_wellFormed h
    rcases List.mem_append.1 hx with hx | hx
    · exact isAllowed_of_mem_source hfollows.sound hx
    · exact ih hfollows.rest hx

end Segment

end WorkflowAudit.Yaml
