import WorkflowAudit.Proofs.Lists.Basic
import WorkflowAudit.Proofs.Pattern.Escaping
import WorkflowAudit.Proofs.Pattern.Matching
import WorkflowAudit.Proofs.Taint.ContextPath

/-!
Runner labels and the globs that name them. The pattern of a glob goes through a label character by
character, and a star may skip any part of it. Main statement: a label in one line of ASCII is known
exactly if it is, but for case, the pieces of a glob between its stars with some texts in place of the
stars.
-/

namespace WorkflowAudit

/-! ### ASCII characters in any case -/

namespace Text

/-- The only run that holds ASCII characters. -/
theorem foldRuns_of_ascii :
    foldRuns.filter (fun run => run.1 < 128) = [(0x41, 26, 1, 0x61)] := by
  decide

/-- The only runs that fold to ASCII characters. -/
theorem foldRuns_to_ascii : foldRuns.filter (fun run => run.2.2.2 < 128) =
    [(0x41, 26, 1, 0x61), (0x17f, 1, 1, 0x73), (0x212a, 1, 1, 0x6b)] := by
  decide

theorem foldCode_ascii {code : Nat} (h : code < 128) :
    foldCode code = if 65 ≤ code ∧ code ≤ 90 then code + 32 else code := by
  rw [foldCode, ← List.find?_filter_of_imp (p := fun run => run.1 < 128), foldRuns_of_ascii]
  · by_cases hupper : 65 ≤ code ∧ code < 65 + 26
    · have hletter : code ≤ 90 := by omega
      simp [hupper, hletter, Nat.mod_one]
    · have hother : ¬(65 ≤ code ∧ code ≤ 90) := by omega
      simp [hupper, hother]
  · intro run hrun
    simp only [Bool.and_eq_true, decide_eq_true_eq] at hrun ⊢
    omega

theorem mem_foldSources_ascii {source target : Nat} (h : target < 128) :
    source ∈ foldSources target ↔ (97 ≤ target ∧ target ≤ 122 ∧ source = target - 32) ∨
      (target = 0x73 ∧ source = 0x17f) ∨ (target = 0x6b ∧ source = 0x212a) := by
  rw [foldSources, ← List.filterMap_filter_of_isSome (p := fun run => run.2.2.2 < 128), foldRuns_to_ascii]
  · simp
    omega
  · rintro ⟨first, count, stride, image⟩ hrun
    simp at hrun ⊢
    omega

/-- Some ASCII letters have a case variant that is not ASCII; the others have the same lower case. -/
theorem mem_caseVariants_ascii {c d : Char} (hc : c.toNat < 128) (hd : d.toNat < 128) :
    d ∈ caseVariants c ↔ d.toLower = c.toLower := by
  have hlowerc := toNat_toLower c
  have hlowerd := toNat_toLower d
  have hascii : c.toLower.toNat < 128 := by split at hlowerc <;> omega
  rw [caseVariants, foldCode_ascii hc, ← toNat_toLower, ← Char.toNat_inj, List.mem_map]
  constructor
  · rintro ⟨code, hcode, rfl⟩
    rw [List.mem_cons, mem_foldSources_ascii hascii] at hcode
    have hvalid : code.isValidChar := .inl (by omega)
    rw [Char.toNat_ofNat, if_pos hvalid] at hd
    rw [Char.toNat_ofNat, if_pos hvalid] at hlowerd
    split at hlowerc <;> split at hlowerd <;> omega
  · intro hsame
    refine ⟨d.toNat, ?_, Char.ofNat_toNat d⟩
    rw [List.mem_cons, mem_foldSources_ascii hascii]
    split at hlowerc <;> split at hlowerd <;> omega

end Text

namespace CharSet

theorem contains_single {c d : Char} : (single d).contains c ↔ c = d := by
  simp only [single, contains, Bool.and_eq_true, decide_eq_true_eq, ← Char.toNat_inj]
  omega

theorem contains_anyCase_single {c d : Char} (hc : c.toNat < 128) (hd : d.toNat < 128) :
    (anyCase (single d)).contains c ↔ d.toLower = c.toLower := by
  simp only [contains, List.any_eq_true, contains_single, exists_eq_right,
    Text.mem_caseVariants_ascii hc hd]

end CharSet

/-! ### Going through a label -/

namespace Pattern

/-- A text that a glob covers: a star any part of it, another character one that differs at most in
    case. -/
inductive Covers : List Char → List Char → Prop
  | done : Covers [] []
  | star {glob text : List Char} (skipped : List Char) :
    Covers glob text → Covers ('*' :: glob) (skipped ++ text)
  | char {g c : Char} {glob text : List Char} :
    g ≠ '*' → g.toLower = c.toLower → Covers glob text → Covers (g :: glob) (c :: text)

variable {label : List Char} {i j : Nat}

/-- Where all characters of a text are of a set, a run of them ends anywhere. -/
theorem matches_run_iff {set : CharSet} (hset : ∀ c ∈ label, set.contains c) (hi : i ≤ label.length) :
    (run set).Matches label.toArray i j ↔ i ≤ j ∧ j ≤ label.length := by
  constructor
  · intro h
    exact MatchesIn.bounds ⟨hi, h⟩
  · rintro ⟨hij, hj⟩
    obtain ⟨n, rfl⟩ := Nat.exists_eq_add_of_le hij
    refine ⟨n, Nat.zero_le n, by simp, ?_⟩
    -- one character more at the front
    induction n generalizing i with
    | zero => exact .done i
    | succ n ih =>
      have hlt : i < label.length := by omega
      have hone : (Pattern.one set).Matches label.toArray i (i + 1) := by
        simp [Matches, hlt, hset]
      have hrest := @ih (i + 1) (by omega) (by omega) (by omega)
      rw [Nat.add_assoc, Nat.add_comm 1 n] at hrest
      exact .step hone hrest

theorem covers_star_iff {glob text : List Char} :
    Covers ('*' :: glob) text ↔ ∃ skipped rest, text = skipped ++ rest ∧ Covers glob rest := by
  constructor
  · intro h
    cases h with
    | star skipped hrest => exact ⟨skipped, _, rfl, hrest⟩
    | char hg => exact absurd rfl hg
  · rintro ⟨skipped, rest, rfl, hrest⟩
    exact .star skipped hrest

theorem covers_char_iff {g : Char} {glob text : List Char} (hg : g ≠ '*') :
    Covers (g :: glob) text ↔ ∃ c rest, text = c :: rest ∧ g.toLower = c.toLower ∧ Covers glob rest := by
  constructor
  · intro h
    cases h with
    | star => exact absurd rfl hg
    | char _ hsame hrest => exact ⟨_, _, rfl, hsame, hrest⟩
  · rintro ⟨c, rest, rfl, hsame, hrest⟩
    exact .char hg hsame hrest

/-- A star skips to any later place. -/
theorem covers_star_drop_iff {glob : List Char} (hi : i ≤ label.length) :
    Covers ('*' :: glob) (label.drop i) ↔
      ∃ k, (i ≤ k ∧ k ≤ label.length) ∧ Covers glob (label.drop k) := by
  rw [covers_star_iff]
  constructor
  · rintro ⟨skipped, rest, htext, hrest⟩
    have hlength := congrArg List.length htext
    rw [List.length_drop, List.length_append] at hlength
    refine ⟨i + skipped.length, by omega, ?_⟩
    rwa [← List.drop_drop, htext, List.drop_left]
  · rintro ⟨k, ⟨hik, -⟩, hrest⟩
    obtain ⟨n, rfl⟩ := Nat.exists_eq_add_of_le hik
    rw [← List.drop_drop] at hrest
    exact ⟨(label.drop i).take n, _, (List.take_append_drop n _).symm, hrest⟩

/-- The pattern of a glob goes through a label from place `i` to the end. -/
def GoesThrough (glob label : List Char) (i : Nat) : Prop :=
  ∃ j, (inOrder (glob.map globPart ++ [.place .textEnd])).Matches label.toArray i j

theorem goesThrough_nil : GoesThrough [] label i ↔ label.length ≤ i := by
  simp [GoesThrough, inOrder, Matches, Anchor.holds]

theorem goesThrough_cons {g : Char} {glob : List Char} : GoesThrough (g :: glob) label i ↔
    ∃ k, (globPart g).Matches label.toArray i k ∧ GoesThrough glob label k := by
  simp only [GoesThrough, List.map_cons, List.cons_append, inOrder, List.foldr_cons, Matches]
  constructor
  · rintro ⟨j, k, hfirst, hrest⟩
    exact ⟨k, hfirst, j, hrest⟩
  · rintro ⟨k, hfirst, j, hrest⟩
    exact ⟨j, k, hfirst, hrest⟩

/-- The pattern of a glob goes through what the glob covers. -/
theorem goesThrough_iff {glob : List Char} (hlabel : ∀ c ∈ label, c.toNat < 128 ∧ c ≠ '\n')
    (hglob : ∀ c ∈ glob, c.toNat < 128) (hi : i ≤ label.length) :
    GoesThrough glob label i ↔ Covers glob (label.drop i) := by
  induction glob generalizing i with
  | nil =>
    rw [goesThrough_nil, ← List.drop_eq_nil_iff]
    generalize label.drop i = text
    constructor
    · rintro rfl
      exact .done
    · intro h
      cases h
      rfl
  | cons g glob ih =>
    obtain ⟨hg, hrest⟩ := List.forall_mem_cons.1 hglob
    rw [goesThrough_cons, globPart]
    split
    · rename_i hstar
      subst hstar
      have hset : ∀ c ∈ label, (CharSet.compl (.single '\n')).contains c := by
        intro c hc
        simpa only [CharSet.contains, Bool.not_eq_true', Bool.eq_false_iff, ne_eq,
          CharSet.contains_single] using (hlabel c hc).2
      rw [covers_star_drop_iff hi]
      refine exists_congr fun k => ?_
      rw [matches_run_iff hset hi]
      exact and_congr_right fun hk => ih hrest hk.2
    · rename_i hstar
      simp only [covers_char_iff hstar, Matches]
      rcases hi.eq_or_lt with rfl | hlt
      · simp
      · have hc := (hlabel _ (List.getElem_mem hlt)).1
        rw [List.drop_eq_getElem_cons hlt]
        simp [hlt, CharSet.contains_anyCase_single hc hg, ih hrest hlt, -List.getElem_cons_drop]

/-- A label fits the pattern of a glob if the glob covers all of it. -/
theorem isIn_ofGlobChars_iff {glob : List Char} {label : String}
    (hlabel : ∀ c ∈ label.toList, c.toNat < 128 ∧ c ≠ '\n') (hglob : ∀ c ∈ glob, c.toNat < 128) :
    (ofGlobChars glob).isIn label ↔ Covers glob label.toList := by
  have hcovers : GoesThrough glob label.toList 0 ↔ Covers glob label.toList :=
    goesThrough_iff hlabel hglob (Nat.zero_le _)
  rw [isIn_iff, ← hcovers]
  constructor
  · rintro ⟨_, j, hi, i, ⟨hstart, rfl⟩, hrest⟩
    cases i with
    | zero => exact ⟨j, hrest⟩
    | succ i =>
      -- there is a character before any place but the first
      simp [Anchor.holds] at hstart
      omega
  · rintro ⟨j, hrest⟩
    exact ⟨0, j, Nat.zero_le _, 0, ⟨rfl, rfl⟩, hrest⟩

/-! ### Pieces and what is between them -/

/-- The text `p0 ++ s1 ++ p1 ++ ... ++ sn ++ pn` of the pieces `p0`, ..., `pn` and the fills `s1`, ...,
    `sn`. -/
def filled (pieces fills : List String) : String :=
  String.join (List.zipWith (· ++ ·) ("" :: fills) pieces)

theorem toList_filled_star (fill piece : String) (pieces fills : List String) :
    (filled ("" :: piece :: pieces) (fill :: fills)).toList =
      fill.toList ++ (filled (piece :: pieces) fills).toList := by
  simp [filled]

theorem toList_filled_char (c : Char) (piece : List Char) (pieces fills : List String) :
    (filled (String.ofList (c :: piece) :: pieces) fills).toList =
      c :: (filled (String.ofList piece :: pieces) fills).toList := by
  simp [filled]

/-- What a glob covers are its pieces with something in place of each star. -/
theorem covers_iff_filled {glob text : List Char} : Covers glob text ↔
    ∃ fills, fills.length + 1 = (glob.splitOn '*').length ∧
      text.map Char.toLower =
        (filled ((glob.splitOn '*').map String.ofList) fills).toList.map Char.toLower := by
  induction glob generalizing text with
  | nil =>
    constructor
    · intro h
      cases h
      exact ⟨[], rfl, rfl⟩
    · rintro ⟨fills, hlength, htext⟩
      cases fills with
      | nil =>
        cases List.map_eq_nil_iff.1 htext
        exact .done
      | cons => simp at hlength
  | cons g glob ih =>
    obtain ⟨piece, pieces, hpieces⟩ := List.exists_cons_of_ne_nil (List.splitOn_ne_nil '*' glob)
    rw [hpieces] at ih
    rw [List.splitOn_cons_eq_if_modifyHead, hpieces]
    by_cases hg : g = '*'
    · subst hg
      simp only [beq_self_eq_true, if_true, List.map_cons, covers_star_iff]
      constructor
      · rintro ⟨skipped, rest, rfl, hrest⟩
        obtain ⟨fills, hlength, htext⟩ := ih.1 hrest
        refine ⟨String.ofList skipped :: fills, congrArg (· + 1) hlength, ?_⟩
        rw [toList_filled_star, List.map_append, List.map_append, htext, String.toList_ofList]
        rfl
      · rintro ⟨fills, hlength, htext⟩
        cases fills with
        | nil => simp at hlength
        | cons fill fills =>
          rw [toList_filled_star, List.map_append] at htext
          obtain ⟨skipped, rest, rfl, -, hrest⟩ := List.map_eq_append_iff.1 htext
          exact ⟨skipped, rest, rfl, ih.2 ⟨fills, Nat.succ.inj hlength, hrest⟩⟩
    · simp only [beq_iff_eq, hg, if_false, List.modifyHead_cons, List.map_cons, toList_filled_char,
        covers_char_iff hg]
      constructor
      · rintro ⟨c, rest, rfl, hsame, hrest⟩
        obtain ⟨fills, hlength, htext⟩ := ih.1 hrest
        exact ⟨fills, hlength, congrArg₂ List.cons hsame.symm htext⟩
      · rintro ⟨fills, hlength, htext⟩
        obtain ⟨c, rest, rfl, hsame, hrest⟩ := List.map_eq_cons_iff.1 htext
        exact ⟨c, rest, rfl, hsame.symm, ih.2 ⟨fills, hlength, hrest⟩⟩

end Pattern

/-! ### Known labels -/

namespace Settings

/-- A label in one line of ASCII is known exactly if it is, but for case, the pieces of one of the globs
    with some texts in place of the stars. -/
theorem hosted_label_iff_filled (s : Settings) (label : String)
    (hlabel : ∀ c ∈ label.toList, c.toNat < 128 ∧ c ≠ '\n')
    (hglobs : ∀ glob ∈ s.hostedLabels, ∀ c ∈ glob.toList, c.toNat < 128) :
    s.isHostedLabel label ↔
      ∃ glob ∈ s.hostedLabels, ∃ fills : List String,
        fills.length + 1 = (Text.split '*' glob).length ∧
          Text.sameIgnoringCase label (Pattern.filled (Text.split '*' glob) fills) := by
  simp only [isHostedLabel, List.any_eq_true, Pattern.ofGlob?_eq, Option.any_some]
  refine exists_congr fun glob => and_congr_right fun hglob => ?_
  rw [Pattern.isIn_ofGlobChars_iff hlabel (hglobs glob hglob), Pattern.covers_iff_filled, Text.split,
    List.length_map]
  simp only [Text.sameIgnoringCase_iff, Text.lower, String.ofList_inj]

/-- Globs with characters that mean something else in patterns, and with stars side by side. -/
def bracketed : Settings :=
  { hostedLabels := ["gpu?", "my.runner-**[x]*"] }

theorem bracketed_label_filled : bracketed.isHostedLabel "MY.runner-a[X]b" := by
  refine (hosted_label_iff_filled bracketed _ ?_ ?_).2
    ⟨"my.runner-**[x]*", by decide, ["a", "", "b"], by decide, by decide⟩
  · simp
  · simp [bracketed]

end Settings

end WorkflowAudit
