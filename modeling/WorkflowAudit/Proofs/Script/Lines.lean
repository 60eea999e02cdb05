import WorkflowAudit.Proofs.Pattern.Openings
import WorkflowAudit.Proofs.Text.Parts
import WorkflowAudit.Script

/-!
Searching a script line by line. The lines are the pieces between line feeds, whatever else they hold,
and offsets count the bytes of the whole script. Main statement: a search succeeds if and only if some
line has a match, and gives the offset of the leftmost match in the first such line; the offset is
between two characters, and what is matched there has no line feed.
-/

namespace WorkflowAudit

namespace Script

open Text (byteSize)

/-! ### Lines and where they are -/

theorem lines_eq_nil {cs : List Char} (h : lines cs = []) : cs = [] := by
  cases cs with
  | nil => rfl
  | cons c cs =>
    rw [lines] at h
    split at h
    · cases h
    · split at h <;> cases h

/-- A first line ends with the text or with a line feed, after which the other lines come. -/
theorem lines_eq_cons {cs line : List Char} {others : List (List Char)}
    (h : lines cs = line :: others) : '\n' ∉ line ∧
      ((cs = line ∧ others = []) ∨ ∃ rest, cs = line ++ '\n' :: rest ∧ others = lines rest) := by
  induction cs generalizing line others with
  | nil => cases h
  | cons c cs ih =>
    rw [lines] at h
    split at h
    · rename_i hc
      cases h
      exact ⟨List.not_mem_nil, .inr ⟨cs, by rw [hc]; rfl, rfl⟩⟩
    · rename_i hc
      split at h
      · rename_i hnone
        cases h
        rw [lines_eq_nil hnone]
        exact ⟨fun hmem => hc (List.mem_singleton.1 hmem).symm, .inl ⟨rfl, rfl⟩⟩
      · rename_i first rest hsome
        cases h
        obtain ⟨hfirst, hrest⟩ := ih hsome
        refine ⟨fun hmem => ?_, ?_⟩
        · rcases List.mem_cons.1 hmem with hmem | hmem
          · exact hc hmem.symm
          · exact hfirst hmem
        · rcases hrest with ⟨rfl, hothers⟩ | ⟨rest', rfl, hothers⟩
          · exact .inl ⟨rfl, hothers⟩
          · exact .inr ⟨rest', rfl, hothers⟩

/-- `line` is a line of a script, and `before` and `after` are the rest of it. What follows the last line
    feed is a line only if it is not empty. -/
structure IsLine (script before line after : List Char) : Prop where
  parts : script = before ++ line ++ after
  opens : before = [] ∨ before.getLast? = some '\n'
  unbroken : '\n' ∉ line
  closes : after.head? = some '\n' ∨ after = [] ∧ line ≠ []

section Lines

variable {script before line after first rest : List Char}

/-- A text has one first piece that ends before a line feed or with the text. -/
theorem append_inj_of_unbroken {line after line' after' : List Char} (h : '\n' ∉ line) (h' : '\n' ∉ line')
    (hafter : after = [] ∨ after.head? = some '\n') (hafter' : after' = [] ∨ after'.head? = some '\n')
    (heq : line ++ after = line' ++ after') : line = line' ∧ after = after' := by
  induction line generalizing line' with
  | nil =>
    cases line' with
    | nil => exact ⟨rfl, heq⟩
    | cons d line' =>
      rw [List.nil_append] at heq
      subst heq
      rcases hafter with hnil | hhead
      · cases hnil
      · cases hhead
        exact absurd (List.mem_cons_self ..) h'
  | cons c line ih =>
    cases line' with
    | nil =>
      rw [List.nil_append] at heq
      subst heq
      rcases hafter' with hnil | hhead
      · cases hnil
      · cases hhead
        exact absurd (List.mem_cons_self ..) h
    | cons d line' =>
      obtain ⟨rfl, htail⟩ := List.cons.inj heq
      obtain ⟨rfl, rfl⟩ := ih (mt (List.mem_cons_of_mem _) h) (mt (List.mem_cons_of_mem _) h') htail
      exact ⟨rfl, rfl⟩

theorem IsLine.head_after (h : IsLine script before line after) :
    after = [] ∨ after.head? = some '\n' :=
  h.closes.elim .inr fun hlast => .inl hlast.1

/-- A text without characters has no lines. -/
theorem not_isLine_nil : ¬IsLine [] before line after := by
  rintro ⟨hparts, -, -, hcloses⟩
  obtain ⟨hnil, hafter⟩ := List.append_eq_nil_iff.1 hparts.symm
  obtain ⟨-, hline⟩ := List.append_eq_nil_iff.1 hnil
  rcases hcloses with hhead | hlast
  · rw [hafter] at hhead
    cases hhead
  · exact hlast.2 hline

/-- Of a text that is not empty, the piece up to the first line feed is a line. -/
theorem isLine_first (hfirst : '\n' ∉ first) (hrest : first ++ rest ≠ [])
    (hends : rest = [] ∨ rest.head? = some '\n') : IsLine (first ++ rest) [] first rest where
  parts := rfl
  opens := .inl rfl
  unbroken := hfirst
  closes := hends.symm.imp_right fun hnil => ⟨hnil, fun h => hrest (by rw [h, hnil]; rfl)⟩

/-- The other lines are those of what comes after the line feed. -/
theorem IsLine.later (h : IsLine rest before line after) (first : List Char) :
    IsLine (first ++ '\n' :: rest) (first ++ '\n' :: before) line after where
  parts := by rw [h.parts]; simp
  opens := by
    refine .inr ?_
    rcases h.opens with rfl | hlast
    · simp
    · rw [List.getLast?_append, List.getLast?_cons, hlast]
      rfl
  unbroken := h.unbroken
  closes := h.closes

/-- A line of a text is the first one or a line of what comes after it. -/
theorem IsLine.cases_first (hfirst : '\n' ∉ first) (hends : rest = [] ∨ rest.head? = some '\n')
    (h : IsLine (first ++ rest) before line after) :
    (before = [] ∧ line = first ∧ after = rest) ∨
      ∃ rest' before', rest = '\n' :: rest' ∧ before = first ++ '\n' :: before' ∧
        IsLine rest' before' line after := by
  rcases h.opens with rfl | hlast
  · obtain ⟨rfl, rfl⟩ := append_inj_of_unbroken hfirst h.unbroken hends h.head_after
      (by simpa using h.parts)
    exact .inl ⟨rfl, rfl, rfl⟩
  · -- the text before the line is cut at its first line feed, which is that of the whole text
    obtain ⟨row, before', rfl, hrow⟩ := List.eq_append_cons_of_mem (List.mem_of_getLast? hlast)
    have hparts : first ++ rest = row ++ '\n' :: (before' ++ line ++ after) := by
      simpa using h.parts
    obtain ⟨rfl, rfl⟩ := append_inj_of_unbroken hfirst hrow hends (.inr rfl) hparts
    refine .inr ⟨_, before', rfl, rfl, rfl, ?_, h.unbroken, h.closes⟩
    cases before' with
    | nil => exact .inl rfl
    | cons c before' => exact .inr (by simpa [List.getLast?_append] using hlast)

/-- The list of lines begins with the first line. -/
theorem exists_isLine_of_lines_eq_cons {others : List (List Char)} (h : lines script = line :: others) :
    ∃ after, IsLine script [] line after := by
  have hne : script ≠ [] := by
    rintro rfl
    cases h
  obtain ⟨hline, hscript⟩ := lines_eq_cons h
  rcases hscript with ⟨rfl, -⟩ | ⟨rest, rfl, -⟩
  · refine ⟨[], ?_⟩
    have hfirst := isLine_first hline (by simpa using hne) (.inl rfl)
    rwa [List.append_nil] at hfirst
  · exact ⟨'\n' :: rest, isLine_first hline hne (.inr rfl)⟩

/-- Every line is in the list of lines. -/
theorem IsLine.mem_lines (h : IsLine script before line after) : line ∈ lines script := by
  generalize hls : lines script = ls
  induction ls generalizing script before with
  | nil =>
    rw [lines_eq_nil hls] at h
    exact absurd h not_isLine_nil
  | cons first others ih =>
    obtain ⟨hfirst, hscript⟩ := lines_eq_cons hls
    rcases hscript with ⟨rfl, -⟩ | ⟨rest, rfl, rfl⟩
    · rw [← List.append_nil script] at h
      rcases h.cases_first hfirst (.inl rfl) with ⟨-, rfl, -⟩ | ⟨_, _, hnil, -⟩
      · exact List.mem_cons_self ..
      · cases hnil
    · rcases h.cases_first hfirst (.inr rfl) with ⟨-, rfl, -⟩ | ⟨_, _, heq, -, hlater⟩
      · exact List.mem_cons_self ..
      · cases heq
        exact List.mem_cons_of_mem _ (ih hlater rfl)

end Lines

theorem firstAmong_eq_none_iff {find : List Char → Option Nat} {start : Nat} {ls : List (List Char)} :
    firstAmong find start ls = none ↔ ∀ line ∈ ls, find line = none := by
  induction ls generalizing start with
  | nil => simp [firstAmong]
  | cons line others ih =>
    rw [firstAmong, List.forall_mem_cons]
    cases find line <;> simp [ih]

/-! ### The first line with a match -/

/-- How a pattern is found in lines: what matches it, from one place of a line to another, and where the
    leftmost match of a line begins. -/
structure Finder where
  Matches : List Char → Nat → Nat → Prop
  find? : List Char → Option Nat
  bounds {line : List Char} {i j : Nat} : Matches line i j → i ≤ j ∧ j ≤ line.length
  find?_eq_some_iff {line : List Char} {i : Nat} : find? line = some i ↔
    (∃ j, Matches line i j) ∧ ∀ i' j', Matches line i' j' → i ≤ i'

namespace Finder

variable (f : Finder) {line : List Char} {i : Nat}

/-- Nothing is found in a line only if nothing matches there. -/
theorem find?_eq_none_iff : f.find? line = none ↔ ∀ i j, ¬f.Matches line i j := by
  rw [← Option.not_isSome_iff_eq_none, Pattern.isSome_iff_of_first fun _ => f.find?_eq_some_iff]
  push Not
  rfl

/-- The leftmost match of a line, at place `i`, where no line before has a match. -/
structure FirstAt (f : Finder) (script before line after : List Char) (i : Nat) : Prop where
  isLine : IsLine script before line after
  isMatch : ∃ j, f.Matches line i j
  leftmost : ∀ i' j', f.Matches line i' j' → i ≤ i'
  first : ∀ before' line' after' i' j', IsLine script before' line' after' → f.Matches line' i' j' →
    before.length ≤ before'.length

/-- One line without a match is passed over. -/
theorem FirstAt.later {first rest before line after : List Char} (h : f.FirstAt rest before line after i)
    (hfirst : '\n' ∉ first) (hnone : f.find? first = none) :
    f.FirstAt (first ++ '\n' :: rest) (first ++ '\n' :: before) line after i where
  isLine := h.isLine.later first
  isMatch := h.isMatch
  leftmost := h.leftmost
  first before' line' after' i' j' hline hmatch := by
    rcases hline.cases_first hfirst (.inr rfl) with ⟨-, rfl, -⟩ | ⟨_, before'', heq, rfl, hlater⟩
    · exact absurd hmatch (f.find?_eq_none_iff.1 hnone i' j')
    · cases heq
      have hle := h.first before'' line' after' i' j' hlater hmatch
      simp only [List.length_append, List.length_cons]
      omega

/-- All lines: what a search gives is where the leftmost match of the first line with one begins. -/
theorem firstAt_of_firstAmong {script : List Char} {start o : Nat}
    (h : firstAmong f.find? start (lines script) = some o) :
    ∃ before line after i, f.FirstAt script before line after i ∧
      o = start + byteSize (before ++ line.take i) := by
  generalize hls : lines script = ls at h
  induction ls generalizing script start with
  | nil => cases h
  | cons line others ih =>
    rw [firstAmong] at h
    cases hfind : f.find? line with
    | some i =>
      obtain ⟨after, hline⟩ := exists_isLine_of_lines_eq_cons hls
      obtain ⟨hmatch, hleftmost⟩ := f.find?_eq_some_iff.1 hfind
      rw [hfind] at h
      exact ⟨[], line, after, i, ⟨hline, hmatch, hleftmost, fun _ _ _ _ _ _ _ => Nat.zero_le _⟩,
        (Option.some.inj h).symm⟩
    | none =>
      obtain ⟨hline, hscript⟩ := lines_eq_cons hls
      rw [hfind] at h
      rcases hscript with ⟨-, rfl⟩ | ⟨rest, rfl, rfl⟩
      · cases h
      · obtain ⟨before, found, after, i, hfirst, rfl⟩ := ih rfl h
        refine ⟨_, found, after, i, hfirst.later f hline hfind, ?_⟩
        have hfeed (cs : List Char) : byteSize ('\n' :: cs) = 1 + byteSize cs := rfl
        simp only [Text.byteSize_append, hfeed]
        omega

section First

variable {f} {script before after : List Char} (h : f.FirstAt script before line after i)

include h

theorem FirstAt.le_length : i ≤ line.length := by
  obtain ⟨j, hmatch⟩ := h.isMatch
  obtain ⟨hij, hj⟩ := f.bounds hmatch
  omega

theorem FirstAt.take_eq : script.take (before.length + i) = before ++ line.take i := by
  rw [h.isLine.parts, List.append_assoc, List.take_length_add_append,
    List.take_append_of_le_length h.le_length]

end First

/-- The finder of a pattern, with which a script is searched for it. -/
def ofPattern (p : Pattern) : Finder where
  Matches := p.MatchesIn
  find? := p.find?
  bounds := Pattern.MatchesIn.bounds
  find?_eq_some_iff := Pattern.find?_eq_some_iff

/-- A match that opens visibly is where a visible character stands. -/
theorem FirstAt.visible {p : Pattern} (hp : p.opensVisibly) {script before after : List Char}
    (h : (ofPattern p).FirstAt script before line after i) :
    ∃ c, script[before.length + i]? = some c ∧ ¬Text.isWhite c := by
  obtain ⟨j, -, hmatch⟩ := h.isMatch
  obtain ⟨c, hc, hvisible⟩ := Pattern.visible_of_matches hp hmatch
  rw [List.getElem?_toArray] at hc
  obtain ⟨hlt, -⟩ := List.getElem?_eq_some_iff.1 hc
  refine ⟨c, ?_, hvisible⟩
  rw [h.isLine.parts, List.append_assoc, List.getElem?_append_right (Nat.le_add_right ..),
    Nat.add_sub_cancel_left, List.getElem?_append_left hlt, hc]

end Finder

/-- A search for a pattern gives the offset of its first match. -/
theorem firstAt_of_find? {p : Pattern} {script : String} {o : Nat} (h : find? p script = some o) :
    ∃ before line after i, (Finder.ofPattern p).FirstAt script.toList before line after i ∧
      o = byteSize (script.toList.take (before.length + i)) := by
  obtain ⟨before, line, after, i, hfirst, heq⟩ := (Finder.ofPattern p).firstAt_of_firstAmong h
  exact ⟨before, line, after, i, hfirst, by rw [hfirst.take_eq, heq, Nat.zero_add]⟩

/-- The size of a lead of a text is an offset between two of its characters. -/
theorem isValid_byteSize {script : String} {lead rest : List Char} (h : script.toList = lead ++ rest) :
    (⟨byteSize lead⟩ : String.Pos.Raw).IsValid script := by
  have hscript : script = String.ofList lead ++ String.ofList rest := by
    rw [← String.ofList_append, ← h, String.ofList_toList]
  have hend : (⟨byteSize lead⟩ : String.Pos.Raw) = (String.ofList lead).rawEndPos := by
    rw [← Text.byteSize_ofList]
    rfl
  rw [hscript, hend]
  exact String.Pos.Raw.isValid_rawEndPos.append_right _

/-- A search finds something if and only if some line has a match. The offset that it gives is that of
    the first such line and, in it, of the leftmost match; it is an offset between two characters, and
    what is matched there is a part of the line. -/
theorem firstMatch_in_first_line (f : Finder) (script : String) :
    ((firstMatch f.find? script).isSome ↔
      ∃ before line after i j, IsLine script.toList before line after ∧ f.Matches line i j) ∧
    ∀ o, firstMatch f.find? script = some o → ∃ before line after i,
      f.FirstAt script.toList before line after i ∧
      o = byteSize before + byteSize (line.take i) ∧
      (⟨o⟩ : String.Pos.Raw).IsValid script ∧
      ∀ j, f.Matches line i j → '\n' ∉ (line.take j).drop i ∧
        script.toList = (before ++ line.take i) ++ ((line.take j).drop i ++ (line.drop j ++ after)) := by
  refine ⟨⟨fun hsome => ?_, ?_⟩, fun o ho => ?_⟩
  · obtain ⟨o, ho⟩ := Option.isSome_iff_exists.1 hsome
    obtain ⟨before, line, after, i, ⟨hline, ⟨j, hmatch⟩, -, -⟩, -⟩ := f.firstAt_of_firstAmong ho
    exact ⟨before, line, after, i, j, hline, hmatch⟩
  · rintro ⟨before, line, after, i, j, hline, hmatch⟩
    rw [Option.isSome_iff_ne_none]
    intro hnone
    have hnot := firstAmong_eq_none_iff.1 hnone line hline.mem_lines
    exact f.find?_eq_none_iff.1 hnot i j hmatch
  · obtain ⟨before, line, after, i, hfirst, rfl⟩ := f.firstAt_of_firstAmong ho
    have hlead : script.toList = (before ++ line.take i) ++ (line.drop i ++ after) := by
      rw [hfirst.isLine.parts]
      nth_rewrite 1 [← List.take_append_drop i line]
      simp only [List.append_assoc]
    rw [Nat.zero_add]
    refine ⟨before, line, after, i, hfirst, Text.byteSize_append .., isValid_byteSize hlead, ?_⟩
    intro j hmatch
    refine ⟨fun hmem => ?_, ?_⟩
    · exact hfirst.isLine.unbroken (List.mem_of_mem_take (List.mem_of_mem_drop hmem))
    · obtain ⟨hij, hj⟩ := f.bounds hmatch
      have hmatched : line.drop i = (line.take j).drop i ++ line.drop j := by
        rw [← List.drop_append_of_le_length (by rw [List.length_take]; omega), List.take_append_drop]
      rw [hlead, hmatched]
      simp only [List.append_assoc]

/-- The letter `é` at the beginning of a line. -/
def accentFirst : Pattern :=
  .seq (.place .textStart) (.literal "é")

/-- Carriage returns, an empty line and letters of two bytes count, and the first lines have the letter
    only inside. -/
theorem accentFirst_in_third_line :
    find? accentFirst "aé\r\n\né=1\né" = some 6 ∧
      ∃ before line after i,
        (Finder.ofPattern accentFirst).FirstAt "aé\r\n\né=1\né".toList before line after i ∧
          6 = byteSize before + byteSize (line.take i) := by
  have hfound : find? accentFirst "aé\r\n\né=1\né" = some 6 := by decide +kernel
  obtain ⟨-, hfirst⟩ := firstMatch_in_first_line (.ofPattern accentFirst) "aé\r\n\né=1\né"
  obtain ⟨before, line, after, i, hat, hoffset, -⟩ := hfirst 6 hfound
  exact ⟨hfound, before, line, after, i, hat, hoffset⟩

end Script

end WorkflowAudit
