import WorkflowAudit.Expr.Fragment
import WorkflowAudit.Proofs.Expr.Closing
import WorkflowAudit.Proofs.Expr.Completeness
import WorkflowAudit.Text.Blank

/-!
Where the expressions of a text stand in it. Main statements: the expression of a fragment is made up of
the tokens after the opening braces, a text that is an expression as a whole is made up of its own
tokens, and each of the tokens is spelled at the place that its origin says.
-/

namespace WorkflowAudit

theorem Origin.offset_advanceAll (o : Origin) (cs : List Char) :
    (o.advanceAll cs).offset = o.offset + Text.byteSize cs := by
  induction cs generalizing o with
  | nil => rfl
  | cons c cs ih =>
    have hc : (o.advance c).offset = o.offset + c.utf8Size := by
      unfold Origin.advance
      split <;> rfl
    rw [Origin.advanceAll, List.foldl_cons, ← Origin.advanceAll, ih, hc, Nat.add_assoc]
    rfl

/-! ### Tokens -/

/-- No white space is among the printable characters of ASCII. -/
theorem Text.isWhite_of_printable {c : Char} (hlow : 0x20 < c.toNat) (hhigh : c.toNat < 0x7f) :
    isWhite c = false := by
  simp only [isWhite, whiteRanges, List.any_cons, List.any_nil, Bool.or_eq_false_iff,
    Bool.and_eq_false_iff, decide_eq_false_iff_not, and_true]
  omega

theorem Lexeme.isWordChar_printable {c : Char} (h : isWordChar c) :
    0x20 < c.toNat ∧ c.toNat < 0x7f := by
  rw [isWordChar, Bool.or_eq_true, List.contains_iff_mem] at h
  rcases h with h | h
  · simp only [isNameChar, Char.isAlphanum, Char.isAlpha, Char.isUpper, Char.isLower, Char.isDigit,
      Bool.or_eq_true, Bool.and_eq_true, decide_eq_true_eq, UInt32.le_iff_toNat_le, ge_iff_le] at h
    have : c.toNat = c.val.toNat := rfl
    have : 'A'.val.toNat = 65 := rfl
    have : 'Z'.val.toNat = 90 := rfl
    have : 'a'.val.toNat = 97 := rfl
    have : 'z'.val.toNat = 122 := rfl
    have : '0'.val.toNat = 48 := rfl
    have : '9'.val.toNat = 57 := rfl
    rcases h with (h | rfl) | rfl
    · omega
    · decide
    · decide
  · simp only [List.mem_cons, List.not_mem_nil, or_false] at h
    rcases h with rfl | rfl | rfl | rfl | rfl | rfl | rfl | rfl | rfl | rfl | rfl | rfl | rfl | rfl <;>
      decide

/-- A word begins with no white space of any kind. -/
theorem Lexeme.Spells.head_not_white {d : Bool} {w : Lexeme} {c : Char} {cs : List Char}
    (h : Spells d w (c :: cs)) : Text.isWhite c = false := by
  rcases h.string_or_isWordChar with ⟨v, rfl⟩ | hword
  · rw [h.head_quote]
    decide
  · obtain ⟨hlow, hhigh⟩ := isWordChar_printable (hword c (List.mem_cons_self ..))
    exact Text.isWhite_of_printable hlow hhigh

namespace Token

open Lexeme (Spells)

/-- The token is spelled at an index of the text, which is what its origin says. -/
structure SpelledAt (text : List Char) (t : Token) (i : Nat) : Prop where
  word : ∃ d word, Spells d t.lexeme word ∧ word <+: text.drop i
  origin : t.origin = Origin.start.advanceAll (text.take i)

theorem SpelledAt.visible {text : List Char} {t : Token} {i : Nat} (h : t.SpelledAt text i) :
    ∃ c, text[i]? = some c ∧ ¬Text.isWhite c := by
  obtain ⟨d, word, hspells, more, hmore⟩ := h.word
  obtain ⟨c, cs, rfl⟩ := List.exists_cons_of_ne_nil hspells.ne_nil
  refine ⟨c, ?_, by rw [hspells.head_not_white]; decide⟩
  rw [← List.head?_drop, ← hmore, List.cons_append, List.head?_cons]

theorem SpelledAt.offset {text : List Char} {t : Token} {i : Nat} (h : t.SpelledAt text i) :
    t.origin.offset = Text.byteSize (text.take i) := by
  rw [h.origin, Origin.offset_advanceAll]
  exact Nat.zero_add _

theorem Scans.spelled {ending : Ending} {d : Bool} {o : Origin} {cs rest : List Char}
    {ts : List Token} (h : Scans ending d o cs ts rest) {t : Token} (ht : t ∈ ts) :
    ∃ d lead word more, cs = lead ++ (word ++ more) ∧ Spells d t.lexeme word ∧
      t.origin = o.advanceAll lead := by
  induction h with
  | done => cases ht
  | @blank d o c cs rest ts _ _ ih =>
    obtain ⟨d', lead, word, more, rfl, hspells, ho⟩ := ih ht
    exact ⟨d', c :: lead, word, more, rfl, hspells, ho⟩
  | @word d o w cs more rest ts htaken _ ih =>
    rcases List.mem_cons.1 ht with rfl | ht
    · exact ⟨d, [], cs, more, rfl, htaken.spells, rfl⟩
    · obtain ⟨d', lead, word, more', rfl, hspells, ho⟩ := ih ht
      refine ⟨d', cs ++ lead, word, more', (List.append_assoc ..).symm, hspells, ?_⟩
      rw [ho, Origin.advanceAll, Origin.advanceAll, Origin.advanceAll, List.foldl_append]

/-- Each token of a text is spelled where its origin says. -/
theorem Scans.spelledAt {ending : Ending} {d : Bool} {cs rest : List Char} {ts : List Token}
    (h : Scans ending d .start cs ts rest) {t : Token} (ht : t ∈ ts) : ∃ i, t.SpelledAt cs i := by
  obtain ⟨d', lead, word, more, rfl, hspells, ho⟩ := h.spelled ht
  refine ⟨lead.length, ⟨d', word, hspells, ?_⟩, by rw [List.take_left, ho]⟩
  rw [List.drop_left]
  exact List.prefix_append ..

end Token

/-! ### Expressions -/

/-- The expression stands in the text from an index on: in a fragment after its opening braces, or as
    the whole text. The tokens there make it up. -/
inductive Expr.StandsAt (text : List Char) : Nat → List Token → Expr → Prop
  | fragment {lead cs rest : List Char} {ts : List Token} {e : Expr} :
      text = lead ++ '$' :: '\x7b' :: '\x7b' :: cs → Token.Scans .braces false .start cs ts rest →
      Stands (.level .or e) ts → StandsAt text (lead.length + 3) ts e
  | whole {ts : List Token} {e : Expr} : Token.Scans .text false .start text ts [] →
      Stands (.level .or e) ts → StandsAt text 0 ts e

namespace Expr

/-- What is read is made up of the tokens. -/
theorem stands_of_parseUpTo {ending : Ending} {cs rest : List Char} {e : Expr}
    (h : parseUpTo ending cs = .ok (e, rest)) :
    ∃ ts, Token.Scans ending false .start cs ts rest ∧ Stands (.level .or e) ts := by
  obtain ⟨ts, hscan, hread, hsized⟩ := parseUpTo_eq_ok_iff.1 h
  have hdenoting : Denoting ts := (denoting_iff fun _ ht _ hcs => hscan.isNumeral ht hcs).2 hsized
  obtain ⟨used, rfl, hstands⟩ := level_sound .or ts hdenoting (ofTokens?_eq_some_iff.1 hread)
  exact ⟨used ++ [], hscan, by rwa [List.append_nil]⟩

theorem standsAt_of_parse {text : String} {e : Expr} (h : parse text = .ok e) :
    ∃ ts, e.StandsAt text.toList 0 ts := by
  obtain ⟨ts, hscan, hstands⟩ := stands_of_parseUpTo (parse_eq_ok_iff.1 h)
  exact ⟨ts, .whole hscan hstands⟩

/-- Each token of an expression is spelled where its origin says, from the index of the expression on. -/
theorem StandsAt.spelledAt {text : List Char} {base : Nat} {ts : List Token} {e : Expr}
    (h : e.StandsAt text base ts) {t : Token} (ht : t ∈ ts) :
    ∃ i, t.SpelledAt (text.drop base) i := by
  cases h with
  | @fragment lead cs rest _ _ htext hscan _ =>
    have hdrop : text.drop (lead.length + 3) = cs := by
      rw [htext, ← List.drop_drop, List.drop_left]
      rfl
    rw [hdrop]
    exact hscan.spelledAt ht
  | whole hscan _ => exact hscan.spelledAt ht

theorem StandsAt.stands {text : List Char} {base : Nat} {ts : List Token} {e : Expr}
    (h : e.StandsAt text base ts) : Stands (.level .or e) ts := by
  cases h <;> assumption

end Expr

/-! ### Fragments -/

namespace Fragment

theorem uptoBraces_prefix (cs : List Char) : uptoBraces cs <+: cs := by
  fun_induction uptoBraces cs with
  | case1 rest => exact ⟨rest, rfl⟩
  | case2 c cs _ ih => exact List.prefix_cons_inj c |>.2 ih
  | case3 => exact List.prefix_rfl

theorem byteSize_opening (lead : List Char) :
    Text.byteSize (lead ++ ['$', '\x7b', '\x7b']) = Text.byteSize lead + 3 :=
  Text.byteSize_append ..

/-- The expression of a fragment stands in the text, and the body of the fragment begins there. The
    characters before those that are scanned come along as `lead`. -/
theorem standsAt_of_mem_scan {offset : Nat} {cs : List Char} {f : Fragment} (hf : f ∈ scan offset cs)
    {e : Expr} (he : f.expr = .ok e) (lead : List Char) (hlead : Text.byteSize lead = offset) :
    ∃ base ts, e.StandsAt (lead ++ cs) base ts ∧
      f.body = Text.byteSize ((lead ++ cs).take base) := by
  fun_induction scan offset cs generalizing lead with
  | case1 => cases hf
  | case2 offset cs e' rest hread _ stop ih =>
    rcases List.mem_cons.1 hf with rfl | hf
    · cases he
      obtain ⟨ts, hscan, hstands⟩ := Expr.stands_of_parseUpTo hread
      refine ⟨lead.length + 3, ts, .fragment rfl hscan hstands, ?_⟩
      rw [List.take_length_add_append, ← hlead]
      exact (byteSize_opening lead).symm
    · obtain ⟨s, rfl, -⟩ := Expr.parseUpTo_before_braces hread
      have htext : lead ++ '$' :: '\x7b' :: '\x7b' :: (s ++ '\x7d' :: '\x7d' :: rest) =
          lead ++ ['$', '\x7b', '\x7b'] ++ (s ++ ['\x7d', '\x7d']) ++ rest := by simp
      have hbody := Text.byteSize_append (s ++ ['\x7d', '\x7d']) rest
      rw [List.append_assoc, List.cons_append, List.singleton_append] at hbody
      rw [htext]
      refine ih hf _ ?_
      rw [Text.byteSize_append, byteSize_opening, hlead]
      omega
  | case3 offset cs err hread raw stop ih =>
    obtain ⟨more, hmore⟩ := uptoBraces_prefix cs
    rcases List.mem_cons.1 hf with rfl | hf
    · cases he
    · have htext : lead ++ '$' :: '\x7b' :: '\x7b' :: cs =
          lead ++ ['$', '\x7b', '\x7b'] ++ raw ++ cs.drop raw.length := by
        rw [List.append_assoc _ raw, ← hmore, List.drop_left, List.append_assoc]
        rfl
      rw [htext]
      refine ih hf _ ?_
      rw [Text.byteSize_append, byteSize_opening, hlead]
  | case4 offset c cs _ ih =>
    rw [List.append_cons]
    refine ih hf _ ?_
    rw [Text.byteSize_append, hlead]
    rfl

/-- The expression of a fragment stands in the text, and the body of the fragment begins there. -/
theorem standsAt_of_mem_all {text : String} {f : Fragment} (hf : f ∈ all text) {e : Expr}
    (he : f.expr = .ok e) : ∃ base ts, e.StandsAt text.toList base ts ∧
      f.body = Text.byteSize (text.toList.take base) :=
  standsAt_of_mem_scan hf he [] rfl

theorem scan_lead {lead : List Char} (h : '$' ∉ lead) (offset : Nat) (cs : List Char) :
    scan offset (lead ++ cs) = scan (offset + Text.byteSize lead) cs := by
  induction lead generalizing offset with
  | nil => rfl
  | cons c lead ih =>
    obtain ⟨hc, hlead⟩ : '$' ≠ c ∧ '$' ∉ lead := by simpa using h
    rw [List.cons_append, scan, ih hlead, Nat.add_assoc]
    · rfl
    · intro _ hopening _
      exact hc hopening.symm

theorem scan_opening (offset : Nat) {cs rest : List Char} {e : Expr}
    (h : Expr.parseUpTo .braces cs = .ok (e, rest)) :
    scan offset ('$' :: '\x7b' :: '\x7b' :: cs) =
      ⟨offset, offset + 3, offset + 3 + (Text.byteSize cs - Text.byteSize rest), .ok e⟩ ::
        scan (offset + 3 + (Text.byteSize cs - Text.byteSize rest)) rest := by
  rw [scan]
  split
  · rename_i e' rest' h'
    cases h.symm.trans h'
    rfl
  · rename_i h'
    cases h.symm.trans h'

end Fragment

end WorkflowAudit
