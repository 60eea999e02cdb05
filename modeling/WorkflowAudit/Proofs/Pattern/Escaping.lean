import Mathlib
import WorkflowAudit.Settings

/-!
Reading back the pattern texts of globs. Such a text is made of pieces in which everything special is
escaped, joined by `.*` and put between anchors. Main statement: it is always read, as the pattern that
goes through the glob character by character.
-/

namespace WorkflowAudit.Pattern

/-! ### The text of a glob -/

/-- How a character is written in an escaped text. -/
def escapeChar (c : Char) : List Char :=
  if isSpecial c then ['\\', c] else [c]

/-- How a character of a glob is written in its pattern text. -/
def globChar (c : Char) : List Char :=
  if c = '*' then ['.', '*'] else escapeChar c

theorem toList_escape (s : String) : (escape s).toList = s.toList.flatMap escapeChar :=
  String.toList_ofList

/-- Escaping the pieces between the stars and joining them writes the glob character by character. -/
theorem intercalate_escape (cs : List Char) :
    ['.', '*'].intercalate ((cs.splitOn '*').map (·.flatMap escapeChar)) = cs.flatMap globChar := by
  induction cs with
  | nil => rfl
  | cons c cs ih =>
    obtain ⟨piece, pieces, hpieces⟩ := List.exists_cons_of_ne_nil (List.splitOn_ne_nil '*' cs)
    rw [hpieces, List.map_cons] at ih
    rw [List.splitOn_cons_eq_if_modifyHead, List.flatMap_cons, ← ih, hpieces]
    by_cases hc : c = '*'
    · simp [hc, globChar]
    · cases pieces <;> simp [hc, globChar]

theorem toList_globText (glob : String) :
    (globText glob).toList = "(?i)^".toList ++ (glob.toList.flatMap globChar ++ ['$']) := by
  rw [globText, String.toList_append, String.toList_append, String.toList_intercalate, Text.split,
    List.map_map, List.map_map, ← intercalate_escape]
  simp only [Function.comp_def, toList_escape, String.toList_ofList, List.append_assoc]
  rfl

/-! ### Reading it -/

/-- The pattern of a character of a glob. -/
def globPart (c : Char) : Pattern :=
  if c = '*' then run (.compl (.single '\n')) else .one (.anyCase (.single c))

/-- What has been read of a text in which letters match in any case, last part first. -/
def anyCaseGroup (parts : List (Option Pattern)) : Group :=
  { flags := { anyCase := true }, parts := parts }

section Reading

variable {fuel : Nat} {names : List String} {outer : List Group} {parts : List (Option Pattern)}
  {rest : List Char}

theorem readGroup_opening : readGroup (fuel + 2) names outer { flags := {} } ("(?i)^".toList ++ rest) =
    readGroup fuel names outer (anyCaseGroup [some (.place .textStart), none]) rest :=
  rfl

theorem readEscape_special {c : Char} (h : isSpecial c) (flags : Flags) (rest : List Char) :
    readEscape flags (c :: rest) = some (.char c, rest) := by
  simp only [isSpecial, List.contains_iff_mem] at h
  simp at h
  rcases h with rfl | rfl | rfl | rfl | rfl | rfl | rfl | rfl | rfl | rfl | rfl | rfl | rfl | rfl |
    rfl | rfl | rfl | rfl <;> rfl

/-- An escaped character is read as itself. -/
theorem readGroup_escapeChar (c : Char) :
    readGroup (fuel + 1) names outer (anyCaseGroup parts) (escapeChar c ++ rest) =
      readGroup fuel names outer (anyCaseGroup (some (.one (.anyCase (.single c))) :: parts)) rest := by
  rw [escapeChar]
  by_cases hc : isSpecial c
  · have hskip (cs : List Char) : skipSpace (anyCaseGroup parts).flags cs = cs := rfl
    rw [if_pos hc, readGroup.eq_def]
    simp only [List.cons_append, List.nil_append, hskip, readEscape_special hc]
    rfl
  · rw [if_neg hc, readGroup.eq_def]
    simp only [List.singleton_append]
    -- all but the last way to read a character are for special ones
    split <;> rename_i heq <;> cases heq
    case h_14 => rfl
    all_goals exact absurd (by decide) hc

/-- `.*` is read as any characters but line feeds, unless a question mark follows. -/
theorem readGroup_dotStar (hrest : rest.head? ≠ some '?') :
    readGroup (fuel + 2) names outer (anyCaseGroup parts) ('.' :: '*' :: rest) =
      readGroup fuel names outer (anyCaseGroup (some (run (.compl (.single '\n'))) :: parts)) rest := by
  have hskip : skipReluctant { anyCase := true } rest = rest := by
    rw [skipReluctant]
    split
    · rename_i heq
      exact absurd (congrArg List.head? heq) hrest
    · rfl
  exact congrArg
    (readGroup fuel names outer (anyCaseGroup (some (run (.compl (.single '\n'))) :: parts))) hskip

/-- No question mark that means something follows a part of a glob. -/
theorem head?_globText (cs : List Char) : (cs.flatMap globChar ++ ['$']).head? ≠ some '?' := by
  cases cs with
  | nil => simp
  | cons c cs =>
    rw [List.flatMap_cons, globChar, escapeChar]
    split
    · simp
    · split
      · simp
      · rename_i hc
        simp only [List.cons_append, List.head?_cons, ne_eq, Option.some.injEq]
        rintro rfl
        exact hc (by decide)

/-- Every character of a glob adds one part. -/
theorem readGroup_glob (cs : List Char) (hfuel : (cs.flatMap globChar).length + 2 ≤ fuel) :
    readGroup fuel names [] (anyCaseGroup parts) (cs.flatMap globChar ++ ['$']) =
      some (anyCaseGroup (some (.place .textEnd) ::
        ((cs.map fun c => some (globPart c)).reverse ++ parts))).close := by
  induction cs generalizing fuel parts with
  | nil =>
    obtain ⟨fuel, rfl⟩ := Nat.exists_eq_add_of_le' hfuel
    rfl
  | cons c cs ih =>
    rw [List.flatMap_cons, List.length_append] at hfuel
    rw [List.flatMap_cons, List.append_assoc]
    by_cases hc : c = '*'
    · subst hc
      have hwidth : (globChar '*').length = 2 := rfl
      obtain ⟨fuel, rfl⟩ : ∃ f, fuel = f + 2 := ⟨fuel - 2, by omega⟩
      refine (readGroup_dotStar (head?_globText cs)).trans ((ih (by omega)).trans ?_)
      simp [globPart]
    · have hchar : globChar c = escapeChar c := if_neg hc
      have hwidth : 1 ≤ (escapeChar c).length := by
        rw [escapeChar]
        split <;> simp
      rw [hchar] at hfuel ⊢
      obtain ⟨fuel, rfl⟩ : ∃ f, fuel = f + 1 := ⟨fuel - 1, by omega⟩
      refine (readGroup_escapeChar c).trans ((ih (by omega)).trans ?_)
      simp [globPart, hc]

end Reading

/-- The pattern that goes through a glob character by character, from one end of a text to the other. -/
def ofGlobChars (glob : List Char) : Pattern :=
  inOrder (.place .textStart :: (glob.map globPart ++ [.place .textEnd]))

/-- The text of a glob is read, whatever the glob is. -/
theorem ofGlob?_eq (glob : String) : ofGlob? glob = some (ofGlobChars glob.toList) := by
  have hlength : (globText glob).length = (glob.toList.flatMap globChar).length + 4 + 2 := by
    rw [← String.length_toList, toList_globText, List.length_append, List.length_append,
      List.length_singleton, Nat.add_comm]
    rfl
  rw [ofGlob?, ofText?, hlength, toList_globText]
  refine (readGroup_opening.trans (readGroup_glob _ (by omega))).trans (congrArg some ?_)
  simp [Group.close, Group.sequence, anyCaseGroup, oneOf, ofGlobChars]

end WorkflowAudit.Pattern
