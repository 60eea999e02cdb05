import WorkflowAudit.Proofs.Expr.Places

/-!
The fragments of a text. Scanning passes over characters that open nothing and takes, at each opening, a
fragment: up to the closing braces of its expression if that can be read, else up to the first closing
braces, or to the end of the text. Main statement: the fragments lie in the text one after the other, each
ends where it should, and no opening is outside all of them.
-/

namespace WorkflowAudit

namespace Fragment

open Text (byteSize byteSize_append byteSize_pos)

/-- What opens a fragment. -/
def opening : List Char := ['$', '\x7b', '\x7b']

/-- What closes a fragment. -/
def braces : List Char := ['\x7d', '\x7d']

/-- The text after an opening is `raw`, which belongs to the fragment, and `rest`. An expression that is
    read ends with its closing braces; if none is read, the fragment ends with the first closing braces,
    or with the text if there are none. -/
inductive Closes : Except Expr.ParseError Expr → (raw rest : List Char) → Prop
  | read {e : Expr} {raw rest : List Char} :
      Expr.parseFragment (String.ofList (raw ++ rest)) = .ok (e, byteSize raw) → braces <:+ raw →
      Closes (.ok e) raw rest
  | failed {err : Expr.ParseError} {inside rest : List Char} :
      Expr.parseFragment (String.ofList (inside ++ braces ++ rest)) = .error err →
      ¬braces <:+: inside ++ ['\x7d'] → Closes (.error err) (inside ++ braces) rest
  | unclosed {err : Expr.ParseError} {raw : List Char} :
      Expr.parseFragment (String.ofList raw) = .error err → ¬braces <:+: raw →
      Closes (.error err) raw []

/-- The fragment is a part of the text: its offsets are those of an opening, of what follows it, and of
    the place where it closes. -/
def CutFrom (text : List Char) (f : Fragment) : Prop :=
  ∃ lead raw rest, text = lead ++ opening ++ raw ++ rest ∧ f.start = byteSize lead ∧
    f.body = f.start + 3 ∧ f.stop = f.body + byteSize raw ∧ Closes f.expr raw rest

/-- What a scan finds ahead of the characters it has passed. -/
inductive Cuts : (passed ahead : List Char) → List Fragment → Prop
  | done {passed : List Char} : Cuts passed [] []
  | pass {passed cs : List Char} {c : Char} {fs : List Fragment} : ¬opening <+: c :: cs →
      Cuts (passed ++ [c]) cs fs → Cuts passed (c :: cs) fs
  | take {passed raw rest : List Char} {f : Fragment} {fs : List Fragment} :
      f.start = byteSize passed → f.body = f.start + 3 → f.stop = f.body + byteSize raw →
      Closes f.expr raw rest → Cuts (passed ++ (opening ++ raw)) rest fs →
      Cuts passed (opening ++ raw ++ rest) (f :: fs)

/-! ### Where a fragment ends -/

theorem parseFragment_ofList (cs : List Char) : Expr.parseFragment (String.ofList cs) =
    (Expr.parseUpTo .braces cs).map fun r => (r.1, byteSize cs - byteSize r.2) := by
  rw [Expr.parseFragment, String.toList_ofList]

/-- The first closing braces end what is cut, or there are none. -/
theorem uptoBraces_cases (cs : List Char) :
    (∃ inside rest, cs = inside ++ braces ++ rest ∧ uptoBraces cs = inside ++ braces ∧
      ¬braces <:+: inside ++ ['\x7d']) ∨ uptoBraces cs = cs ∧ ¬braces <:+: cs := by
  fun_induction uptoBraces cs with
  | case1 rest =>
    refine .inl ⟨[], rest, rfl, rfl, fun h => ?_⟩
    have := h.length_le
    simp [braces] at this
  | case2 c cs hc ih =>
    -- the braces are not the first two characters, so they come later or nowhere
    have hhead (more : List Char) (hmore : more <+: cs) : ¬braces <+: c :: more := by
      rintro ⟨tail, htail⟩
      obtain ⟨rfl, rfl⟩ := List.cons.inj htail
      obtain ⟨last, rfl⟩ := hmore
      exact hc (tail ++ last) rfl rfl
    rcases ih with ⟨inside, rest, hcs, hupto, hnone⟩ | ⟨hupto, hnone⟩
    · refine .inl ⟨c :: inside, rest, by rw [hcs]; rfl, by rw [hupto]; rfl, fun h => ?_⟩
      rcases List.infix_cons_iff.1 h with h | h
      · refine hhead (inside ++ ['\x7d']) ⟨'\x7d' :: rest, ?_⟩ h
        rw [hcs]
        simp [braces]
      · exact hnone h
    · refine .inr ⟨by rw [hupto], fun h => ?_⟩
      rcases List.infix_cons_iff.1 h with h | h
      · exact hhead cs List.prefix_rfl h
      · exact hnone h
  | case3 =>
    refine .inr ⟨rfl, fun h => ?_⟩
    have := h.length_le
    simp [braces] at this

theorem closes_of_parseUpTo {cs rest : List Char} {e : Expr}
    (h : Expr.parseUpTo .braces cs = .ok (e, rest)) :
    ∃ raw, cs = raw ++ rest ∧ Closes (.ok e) raw rest := by
  obtain ⟨s, hcs, -⟩ := Expr.parseUpTo_before_braces h
  have hsplit : cs = s ++ braces ++ rest := by
    rw [hcs]
    simp [braces]
  refine ⟨s ++ braces, hsplit, .read ?_ (List.suffix_append ..)⟩
  have hsize : byteSize cs - byteSize rest = byteSize (s ++ braces) := by
    rw [hsplit, byteSize_append]
    omega
  rw [← hsplit, parseFragment_ofList, h]
  simp only [Except.map, hsize]

theorem closes_of_error {cs : List Char} {err : Expr.ParseError}
    (h : Expr.parseUpTo .braces cs = .error err) :
    Closes (.error err) (uptoBraces cs) (cs.drop (uptoBraces cs).length) := by
  have herror : Expr.parseFragment (String.ofList cs) = .error err := by
    rw [parseFragment_ofList, h]
    rfl
  rcases uptoBraces_cases cs with ⟨inside, rest, hcs, hupto, hnone⟩ | ⟨hupto, hnone⟩
  · have hrest : cs.drop (inside ++ braces).length = rest := by rw [hcs, List.drop_left]
    rw [hupto, hrest]
    exact .failed (hcs ▸ herror) hnone
  · rw [hupto, List.drop_length]
    exact .unclosed herror hnone

/-- Scanning cuts fragments from what is ahead. -/
theorem cuts_scan {offset : Nat} {cs : List Char} (passed : List Char)
    (h : byteSize passed = offset) : Cuts passed cs (scan offset cs) := by
  fun_induction scan offset cs generalizing passed with
  | case1 => exact .done
  | case2 offset cs e rest hread _ stop ih =>
    obtain ⟨raw, rfl, hcloses⟩ := closes_of_parseUpTo hread
    have hstop : stop = offset + 3 + byteSize raw := by
      simp only [stop, byteSize_append]
      omega
    refine .take h.symm rfl hstop hcloses (ih _ ?_)
    rw [byteSize_append, byteSize_append, hstop, h]
    exact (Nat.add_assoc ..).symm
  | case3 offset cs err hread raw stop ih =>
    have hlead : raw <+: cs := uptoBraces_prefix cs
    have hahead : '$' :: '\x7b' :: '\x7b' :: cs = opening ++ raw ++ cs.drop raw.length := by
      rw [List.append_assoc, List.prefix_iff_eq_append.1 hlead]
      rfl
    rw [hahead]
    refine .take h.symm rfl rfl (closes_of_error hread) (ih _ ?_)
    rw [byteSize_append, byteSize_append, h]
    exact (Nat.add_assoc ..).symm
  | case4 offset c cs hc ih =>
    refine .pass ?_ (ih _ ?_)
    · rintro ⟨tail, htail⟩
      obtain ⟨rfl, rfl⟩ := List.cons.inj htail
      exact hc tail rfl rfl
    · rw [byteSize_append, h]
      rfl

/-! ### What the cuts have in common -/

namespace Cuts

variable {passed ahead : List Char} {fs : List Fragment}

theorem cutFrom (h : Cuts passed ahead fs) : ∀ f ∈ fs, f.CutFrom (passed ++ ahead) := by
  induction h with
  | done => simp
  | pass _ _ ih =>
    rw [List.append_cons]
    exact ih
  | @take passed raw rest f fs hstart hbody hstop hcloses _ ih =>
    refine List.forall_mem_cons.2 ⟨⟨passed, raw, rest, ?_, hstart, hbody, hstop, hcloses⟩, ?_⟩
    · simp
    · rwa [List.append_assoc] at ih

theorem byteSize_le_start (h : Cuts passed ahead fs) : ∀ f ∈ fs, byteSize passed ≤ f.start := by
  induction h with
  | done => simp
  | pass _ _ ih =>
    intro f hf
    have := ih f hf
    rw [byteSize_append] at this
    omega
  | take hstart _ _ _ _ ih =>
    refine List.forall_mem_cons.2 ⟨Nat.le_of_eq hstart.symm, fun f hf => ?_⟩
    have := ih f hf
    rw [byteSize_append] at this
    omega

theorem stop_eq {raw : List Char} {f : Fragment} (hstart : f.start = byteSize passed)
    (hbody : f.body = f.start + 3) (hstop : f.stop = f.body + byteSize raw) :
    f.stop = byteSize (passed ++ (opening ++ raw)) := by
  have hopening : byteSize opening = 3 := rfl
  rw [byteSize_append, byteSize_append, hopening]
  omega

/-- The fragments follow one another. -/
theorem pairwise (h : Cuts passed ahead fs) : fs.Pairwise fun f g => f.stop ≤ g.start := by
  induction h with
  | done => exact List.Pairwise.nil
  | pass _ _ ih => exact ih
  | take hstart hbody hstop _ hrest ih =>
    refine List.pairwise_cons.2 ⟨fun g hg => ?_, ih⟩
    rw [stop_eq hstart hbody hstop]
    exact hrest.byteSize_le_start g hg

/-- Each fragment takes three bytes or more. -/
theorem length_le (h : Cuts passed ahead fs) : 3 * fs.length ≤ byteSize ahead := by
  induction h with
  | done => simp
  | @pass passed cs c fs _ _ ih =>
    have hcons : byteSize (c :: cs) = c.utf8Size + byteSize cs := rfl
    omega
  | @take passed raw rest f fs _ _ _ _ _ ih =>
    have hopening : byteSize opening = 3 := rfl
    rw [byteSize_append, byteSize_append, hopening, List.length_cons]
    omega

/-- An opening ahead begins a fragment or stands inside one. -/
theorem covers (h : Cuts passed ahead fs) {lead rest : List Char}
    (hahead : ahead = lead ++ opening ++ rest) :
    ∃ f ∈ fs, f.start = byteSize (passed ++ lead) ∨
      f.start < byteSize (passed ++ lead) ∧ byteSize (passed ++ lead) < f.stop := by
  induction h generalizing lead with
  | done => simp [opening] at hahead
  | @pass passed cs c fs hc _ ih =>
    cases lead with
    | nil =>
      refine absurd ?_ hc
      rw [hahead]
      exact List.prefix_append ..
    | cons d lead =>
      obtain ⟨rfl, hcs⟩ := List.cons.inj hahead
      rw [List.append_cons]
      exact ih hcs
  | @take passed raw rest' f fs hstart hbody hstop hcloses _ ih =>
    rw [List.append_assoc lead] at hahead
    rcases List.append_eq_append_iff.1 hahead with ⟨tail, hlead, hrest⟩ | ⟨tail, hraw, hrest⟩
    · -- the opening comes after the fragment
      have hlater : rest' = tail ++ opening ++ rest := by rw [hrest, List.append_assoc]
      obtain ⟨g, hg, hplace⟩ := ih hlater
      refine ⟨g, List.mem_cons_of_mem _ hg, ?_⟩
      rwa [hlead, ← List.append_assoc]
    · -- the opening begins within the fragment, or right after it
      by_cases htail : tail = []
      · subst htail
        rw [List.append_nil] at hraw
        have hnext : rest' = [] ++ opening ++ rest := hrest.symm
        obtain ⟨g, hg, hplace⟩ := ih hnext
        refine ⟨g, List.mem_cons_of_mem _ hg, ?_⟩
        rwa [List.append_nil, hraw] at hplace
      · refine ⟨f, List.mem_cons_self .., ?_⟩
        have hend := stop_eq hstart hbody hstop
        have hpos := byteSize_pos htail
        rw [hraw, byteSize_append, byteSize_append] at hend
        rw [byteSize_append, hstart]
        by_cases hlead : lead = []
        · exact .inl (by rw [hlead]; rfl)
        · have := byteSize_pos hlead
          exact .inr (by omega)

end Cuts

/-- Nothing is lost, overlaps or repeats among the fragments of a text, and there are no more than its
    bytes allow. Each is cut from the text where an opening stands and closes where it should, they follow
    one another, and every opening in the text begins a fragment or stands strictly inside one. -/
theorem all_cut_exactly (text : String) :
    3 * (all text).length ≤ byteSize text.toList ∧
      (∀ f ∈ all text, f.CutFrom text.toList) ∧
      ((all text).Pairwise fun f g => f.stop ≤ g.start) ∧
      ∀ lead rest, text.toList = lead ++ opening ++ rest → ∃ f ∈ all text,
        f.start = byteSize lead ∨ f.start < byteSize lead ∧ byteSize lead < f.stop := by
  have hcuts : Cuts [] text.toList (all text) := cuts_scan [] rfl
  exact ⟨hcuts.length_le, hcuts.cutFrom, hcuts.pairwise, fun lead rest h => hcuts.covers h⟩

/-- A second opening inside a fragment that cannot be read begins no fragment of its own; the braces in
    the string before did not end the fragment before. -/
theorem nested_opening_is_covered :
    ∃ f ∈ all "$\x7b\x7b 'é\x7d\x7d' \x7d\x7d-$\x7b\x7b $\x7b\x7b a \x7d\x7d",
      f.start = 18 ∨ f.start < 18 ∧ 18 < f.stop :=
  (all_cut_exactly _).2.2.2 "$\x7b\x7b 'é\x7d\x7d' \x7d\x7d-$\x7b\x7b ".toList " a \x7d\x7d".toList
    (by decide)

end Fragment

end WorkflowAudit
