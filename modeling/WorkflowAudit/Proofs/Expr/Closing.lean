import WorkflowAudit.Proofs.Expr.Scanning
import WorkflowAudit.Proofs.Text.Parts

/-!
A fragment's expression and its closing braces. Reading an expression up to two closing braces gives
the same as reading the text before them on its own, whatever comes after them: no word but a string
holds a brace, and a string that is complete before the braces does not reach beyond them.
-/

namespace WorkflowAudit

namespace Token

/-- The tokens before closing braces are those of the text before them alone. -/
theorem Scans.before_braces {d : Bool} {o : Origin} {cs rest : List Char} {ts : List Token}
    (h : Scans .braces d o cs ts rest) :
    ∃ s, cs = s ++ '\x7d' :: '\x7d' :: rest ∧ Scans .text d o s ts [] := by
  induction h with
  | @done d o cs rest hrest =>
    unfold Ending.rest? at hrest
    split at hrest <;> cases hrest
    · rename_i heq; cases heq
    · exact ⟨[], rfl, .done rfl⟩
  | @blank d o c cs rest ts hc _ ih =>
    obtain ⟨s, rfl, hs⟩ := ih
    exact ⟨c :: s, rfl, .blank hc hs⟩
  | @word d o w cs more rest ts ht _ ih =>
    obtain ⟨s, rfl, hs⟩ := ih
    exact ⟨cs ++ s, by rw [List.append_assoc], .word ht.of_append hs⟩

/-- The tokens of a whole text stay the same when closing braces and anything else follow. -/
theorem Scans.append_braces {d : Bool} {o : Origin} {s r : List Char} {ts : List Token}
    (h : Scans .text d o s ts r) (rest : List Char) :
    Scans .braces d o (s ++ '\x7d' :: '\x7d' :: rest) ts rest := by
  induction h with
  | @done d o cs r hr =>
    unfold Ending.rest? at hr
    split at hr <;> cases hr
    · exact .done rfl
    · rename_i heq; cases heq
  | blank hc _ ih => exact .blank hc ih
  | word ht _ ih =>
    rw [List.append_assoc]
    exact .word (ht.before (by decide) (by decide) _) ih

end Token

namespace Expr

/-- The two braces that close a fragment. -/
def closing : String := "\x7d\x7d"

theorem parseUpTo_before_braces {cs rest : List Char} {e : Expr}
    (h : parseUpTo .braces cs = .ok (e, rest)) :
    ∃ s, cs = s ++ '\x7d' :: '\x7d' :: rest ∧ parseUpTo .text s = .ok (e, []) := by
  obtain ⟨ts, hscan, hread⟩ := parseUpTo_eq_ok_iff.1 h
  obtain ⟨s, rfl, hs⟩ := hscan.before_braces
  exact ⟨s, rfl, parseUpTo_eq_ok_iff.2 ⟨ts, hs, hread⟩⟩

theorem parseUpTo_append_braces {s : List Char} {e : Expr} (h : parseUpTo .text s = .ok (e, []))
    (rest : List Char) : parseUpTo .braces (s ++ '\x7d' :: '\x7d' :: rest) = .ok (e, rest) := by
  obtain ⟨ts, hscan, hread⟩ := parseUpTo_eq_ok_iff.1 h
  exact parseUpTo_eq_ok_iff.2 ⟨ts, hscan.append_braces rest, hread⟩

/-- The text before the closing braces is determined by the whole. -/
theorem eq_of_append_closing {s s' rest rest' : List Char} {e e' : Expr}
    (h : s ++ '\x7d' :: '\x7d' :: rest = s' ++ '\x7d' :: '\x7d' :: rest')
    (hs : parseUpTo .text s = .ok (e, [])) (hs' : parseUpTo .text s' = .ok (e', [])) : s = s' := by
  have hread := parseUpTo_append_braces hs rest
  rw [h, parseUpTo_append_braces hs' rest'] at hread
  cases hread
  exact List.append_cancel_right h

theorem toList_append_closing (s rest : String) :
    (s ++ closing ++ rest).toList = s.toList ++ '\x7d' :: '\x7d' :: rest.toList := by
  rw [String.toList_append, String.toList_append, List.append_assoc]
  rfl

/-- The number of bytes read is that of the expression's text and the closing braces. -/
theorem parseFragment_append_closing {s : String} {e : Expr} (h : parse s = .ok e) (rest : String) :
    parseFragment (s ++ closing ++ rest) = .ok (e, s.utf8ByteSize + 2) := by
  have hread := parseUpTo_append_braces (parse_eq_ok_iff.1 h) rest.toList
  have hsize : s.utf8ByteSize = Text.byteSize s.toList := by
    rw [← Text.byteSize_ofList, String.ofList_toList]
  have hbraces : Text.byteSize ('\x7d' :: '\x7d' :: rest.toList) = 2 + Text.byteSize rest.toList :=
    Text.byteSize_append ['\x7d', '\x7d'] rest.toList
  rw [parseFragment, toList_append_closing, hread, hsize, Text.byteSize_append, hbraces]
  simp only [Except.map]
  congr 2
  omega

/-- The two ways to read an expression agree. A fragment is read with `n` bytes exactly when the two
    bytes before offset `n` are the closing braces and the text before them is an expression, the same
    one with the same origins. So what follows the braces never matters, and there is at most one place
    where the text before the braces is an expression. -/
theorem parseFragment_agrees_with_parse :
    (∀ (b : String) (e : Expr) (n : Nat), parseFragment b = .ok (e, n) ↔
      ∃ s rest, b = s ++ closing ++ rest ∧ n = s.utf8ByteSize + 2 ∧ parse s = .ok e) ∧
    (∀ (s rest : String) (e : Expr), parse s = .ok e →
      parseFragment (s ++ closing ++ rest) = .ok (e, s.utf8ByteSize + 2)) ∧
    (∀ (s s' rest rest' : String) (e e' : Expr), s ++ closing ++ rest = s' ++ closing ++ rest' →
      parse s = .ok e → parse s' = .ok e' → s = s') := by
  refine ⟨fun b e n => ⟨fun h => ?_, ?_⟩, fun s rest e h => parseFragment_append_closing h rest, ?_⟩
  · unfold parseFragment at h
    cases hp : parseUpTo .braces b.toList with
    | error err => rw [hp] at h; cases h
    | ok r =>
      obtain ⟨e', rest⟩ := r
      obtain ⟨s, hb, hs⟩ := parseUpTo_before_braces hp
      have hb' : b = String.ofList s ++ closing ++ String.ofList rest := by
        rw [← String.toList_inj, toList_append_closing, String.toList_ofList, String.toList_ofList, hb]
      have hparse : parse (String.ofList s) = .ok e' := by
        rw [parse_eq_ok_iff, String.toList_ofList]
        exact hs
      have hagain := parseFragment_append_closing hparse (String.ofList rest)
      rw [← hb', parseFragment, h] at hagain
      cases hagain
      exact ⟨_, _, hb', rfl, hparse⟩
  · rintro ⟨s, rest, rfl, rfl, h⟩
    exact parseFragment_append_closing h rest
  · intro s s' rest rest' e e' h hs hs'
    rw [← String.toList_inj, toList_append_closing, toList_append_closing] at h
    rw [← String.toList_inj]
    exact eq_of_append_closing h (parse_eq_ok_iff.1 hs) (parse_eq_ok_iff.1 hs')

/-- Braces inside a string do not close a fragment, and a quote after the closing ones opens none. -/
theorem parseFragment_agrees_at_string :
    parse "a == '\x7d\x7d' " = .ok (.binary .start .eq (.var .start "a")
      (.literal ⟨1, 6, 5⟩ (.string "\x7d\x7d"))) ∧
    parseFragment ("a == '\x7d\x7d' " ++ closing ++ "'\x7d\x7d") =
      .ok (.binary .start .eq (.var .start "a") (.literal ⟨1, 6, 5⟩ (.string "\x7d\x7d")), 12) := by
  have h : parse "a == '\x7d\x7d' " = .ok (.binary .start .eq (.var .start "a")
      (.literal ⟨1, 6, 5⟩ (.string "\x7d\x7d"))) := by cbv
  exact ⟨h, parseFragment_agrees_with_parse.2.1 _ _ _ h⟩

end Expr

end WorkflowAudit
