import WorkflowAudit.Expr.Parser
import WorkflowAudit.Proofs.Expr.LongestWord

/-!
Scanning as a relation: blanks are passed over, and at each other place the longest word is taken. Main
statement: `Token.scan` gives tokens exactly when they stand in this relation to the text.
-/

namespace WorkflowAudit

namespace Token

open Lexeme (Taken Spells isBlank read?)

/-- The text is cut into tokens up to the ending, and `rest` comes after it. -/
inductive Scans (ending : Ending) : (afterDot : Bool) → Origin → List Char → List Token →
    (rest : List Char) → Prop
  | done {d : Bool} {o : Origin} {cs rest : List Char} : ending.rest? cs = some rest →
      Scans ending d o cs [] rest
  | blank {d : Bool} {o : Origin} {c : Char} {cs rest : List Char} {ts : List Token} : isBlank c →
      Scans ending d (o.advance c) cs ts rest → Scans ending d o (c :: cs) ts rest
  | word {d : Bool} {o : Origin} {w : Lexeme} {cs more rest : List Char} {ts : List Token} :
      Taken d w cs more → Scans ending (w == .dot) (o.advanceAll cs) more ts rest →
      Scans ending d o (cs ++ more) (⟨w, o⟩ :: ts) rest

theorem rest?_blank (ending : Ending) {c : Char} (hc : isBlank c) (cs : List Char) :
    ending.rest? (c :: cs) = none := by
  unfold Ending.rest?
  split
  · rename_i h; cases h
  · rename_i h; cases h; cases hc
  · rfl

theorem rest?_word (ending : Ending) {d : Bool} {w : Lexeme} {c : Char} {p : List Char}
    (h : Spells d w (c :: p)) (cs : List Char) : ending.rest? (c :: cs) = none := by
  unfold Ending.rest?
  split
  · rename_i h; cases h
  · rename_i heq
    obtain ⟨rfl, -⟩ := List.cons.inj heq
    obtain ⟨v, rfl⟩ := h.string_of_mem (List.mem_cons_self ..) (by decide)
    exact absurd h.head_quote (by decide)
  · rfl

theorem scan_of_scans {ending : Ending} {d : Bool} {o : Origin} {cs rest : List Char}
    {ts : List Token} (h : Scans ending d o cs ts rest) :
    scan ending d o cs = some (ts, rest) := by
  induction h with
  | done hrest =>
    rw [scan.eq_def]
    simp only [hrest]
  | blank hc _ ih =>
    rw [scan, rest?_blank ending hc]
    simp only [hc, if_true]
    exact ih
  | @word d o w cs more rest ts ht _ ih =>
    obtain ⟨c, p, rfl⟩ := List.exists_cons_of_ne_nil ht.spells.ne_nil
    rw [List.cons_append, scan, rest?_word ending ht.spells]
    simp only [ht.spells.head_not_blank, Bool.false_eq_true, if_false, Lexeme.read?_eq_some_iff.2 ht,
      List.take_left, List.drop_left, ih, Option.map_some]

theorem scans_of_scan {ending : Ending} {d : Bool} {o : Origin} {cs rest : List Char}
    {ts : List Token} (h : scan ending d o cs = some (ts, rest)) :
    Scans ending d o cs ts rest := by
  fun_induction scan ending d o cs generalizing ts rest with
  | case1 d o cs r hr =>
    cases h
    exact .done hr
  | case2 => cases h
  | case3 d o c cs hc _ ih => exact .blank hc (ih h)
  | case4 => cases h
  | case5 d o c cs hc w n hread _ ih =>
    obtain ⟨⟨ts, r⟩, hs, he⟩ := Option.map_eq_some_iff.1 h
    cases he
    have hlen : (cs.take n).length = n := by
      rw [List.length_take, Nat.min_eq_left (Lexeme.read?_spells hread).1]
    have htaken : Taken d w (c :: cs.take n) (cs.drop n) := by
      rw [← Lexeme.read?_eq_some_iff, List.take_append_drop, hlen]
      exact hread
    have hword := Scans.word htaken (ih hs)
    rwa [List.cons_append, List.take_append_drop] at hword

/-- The scanner gives tokens exactly when the text is cut into them. -/
theorem scan_eq_some_iff {ending : Ending} {d : Bool} {o : Origin} {cs rest : List Char}
    {ts : List Token} : scan ending d o cs = some (ts, rest) ↔ Scans ending d o cs ts rest :=
  ⟨scans_of_scan, scan_of_scans⟩

/-- Nothing is left after a whole text. -/
theorem Scans.rest_eq_nil {d : Bool} {o : Origin} {cs rest : List Char} {ts : List Token}
    (h : Scans .text d o cs ts rest) : rest = [] := by
  induction h with
  | done hrest =>
    unfold Ending.rest? at hrest
    split at hrest <;> cases hrest
    · rfl
    · rename_i heq; cases heq
  | blank _ _ ih => exact ih
  | word _ _ ih => exact ih

/-- A number among the tokens is spelled as one. -/
theorem Scans.isNumeral {ending : Ending} {d : Bool} {o : Origin} {cs rest : List Char} {ts : List Token}
    (h : Scans ending d o cs ts rest) {t : Token} (ht : t ∈ ts) {ds : List Char}
    (hds : t.lexeme = .number ds) : Lexeme.IsNumeral ds := by
  induction h with
  | done _ => cases ht
  | blank _ _ ih => exact ih ht
  | @word d o w cs more rest ts htaken _ ih =>
    rcases List.mem_cons.1 ht with rfl | ht
    · obtain rfl : w = .number ds := hds
      cases htaken.spells with
      | number hnumeral => exact hnumeral
    · exact ih ht

end Token

namespace Expr

/-- Reading succeeds when the text is cut into tokens that are an expression without numbers too
    large. -/
theorem parseUpTo_eq_ok_iff {ending : Ending} {cs rest : List Char} {e : Expr} :
    parseUpTo ending cs = .ok (e, rest) ↔ ∃ ts, Token.Scans ending false .start cs ts rest ∧
      ofTokens? ts = some e ∧ ts.findSome? complaint? = none := by
  simp only [← Token.scan_eq_some_iff]
  constructor
  · intro h
    unfold parseUpTo at h
    split at h
    · cases h
    · rename_i ts r hscan
      split at h
      · cases h
      · rename_i e' he
        split at h <;> cases h
        rename_i hnone
        exact ⟨ts, hscan, he, hnone⟩
  · rintro ⟨ts, hscan, he, hnone⟩
    simp only [parseUpTo, hscan, he, hnone]

theorem parse_eq_ok_iff {text : String} {e : Expr} :
    parse text = .ok e ↔ parseUpTo .text text.toList = .ok (e, []) := by
  unfold parse
  constructor
  · intro h
    cases hp : parseUpTo .text text.toList with
    | error err => rw [hp] at h; cases h
    | ok r =>
      obtain ⟨e', rest⟩ := r
      obtain ⟨ts, hscan, -⟩ := parseUpTo_eq_ok_iff.1 hp
      rw [hp] at h
      cases h
      rw [hscan.rest_eq_nil]
  · intro h
    rw [h]
    rfl

end Expr

end WorkflowAudit
