import Mathlib
import WorkflowAudit.Proofs.Expr.Closing
import WorkflowAudit.Yaml.Node

/-!
Where the characters of a scalar's value come from. A value and its source may differ in their white
space; what they have in common are their visible characters. Main statement: if these are the same, the
offset of a visible character of the value leads to the place of the character of the source that has as
many visible ones before it.
-/

namespace WorkflowAudit.Yaml

open Text (byteSize)

/-! ### Visible characters -/

section Visible

variable {α : Type} (next : α → Char → α) (style : Style)

/-- The visible characters of a source with their places, where `next` gives the place after a
    character. Between single quotes two quotes are one character, at the place of the first. -/
def visible : α → List Char → List (α × Char)
  | _, [] => []
  | a, [c] => if Text.isWhite c then [] else [(a, c)]
  | a, c :: d :: rest =>
    if style = .single ∧ c = '\'' ∧ d = '\'' then (a, c) :: visible (next (next a c) d) rest
    else if Text.isWhite c then visible (next a c) (d :: rest)
    else (a, c) :: visible (next a c) (d :: rest)

@[simp] theorem visible_nil (a : α) : visible next style a [] = [] := rfl

theorem visible_white {c : Char} (hc : Text.isWhite c) (a : α) (cs : List Char) :
    visible next style a (c :: cs) = visible next style (next a c) cs := by
  have hquote : c ≠ '\'' := by
    rintro rfl
    exact absurd hc (by decide)
  cases cs with
  | nil => simp [visible, hc]
  | cons d rest => simp [visible, hc, hquote]

theorem visible_quotes (h : style = .single) (a : α) (rest : List Char) :
    visible next style a ('\'' :: '\'' :: rest) =
      (a, '\'') :: visible next style (next (next a '\'') '\'') rest := by
  simp [visible, h]

theorem visible_ink {c : Char} {cs : List Char} (hc : ¬Text.isWhite c)
    (h : ¬(style = .single ∧ c = '\'' ∧ cs.head? = some '\'')) (a : α) :
    visible next style a (c :: cs) = (a, c) :: visible next style (next a c) cs := by
  cases cs with
  | nil => simp [visible, hc]
  | cons d rest =>
    simp only [List.head?_cons, Option.some.injEq] at h
    simp [visible, hc, h]

end Visible

/-- The index after a character. -/
def nextIndex (i : Nat) (_ : Char) : Nat :=
  i + 1

/-- The visible characters of a source with their indices. -/
def visibleAt (style : Style) (cs : List Char) : List (Nat × Char) :=
  visible nextIndex style 0 cs

/-- What is visible is in the source, at its index. -/
theorem getElem?_of_mem_visible {style : Style} {i : Nat} {cs : List Char} {k : Nat} {c : Char}
    (h : (k, c) ∈ visible nextIndex style i cs) : i ≤ k ∧ cs[k - i]? = some c := by
  have hhere (i : Nat) (c : Char) (cs : List Char) : i ≤ i ∧ (c :: cs)[i - i]? = some c := by simp
  have hlater {i k : Nat} {d : Char} {cs : List Char} (h : i + 1 ≤ k ∧ cs[k - (i + 1)]? = some c) :
      i ≤ k ∧ (d :: cs)[k - i]? = some c := by
    refine ⟨Nat.le_of_succ_le h.1, ?_⟩
    rw [show k - i = k - (i + 1) + 1 from by have := h.1; omega, List.getElem?_cons_succ]
    exact h.2
  fun_induction visible nextIndex style i cs with
  | case1 => cases h
  | case2 => cases h
  | case3 i x hx => cases List.mem_singleton.1 h; exact hhere ..
  | case4 i x d rest hquotes ih =>
    rcases List.mem_cons.1 h with heq | hmem
    · cases heq; exact hhere ..
    · exact hlater (hlater (ih hmem))
  | case5 i x d rest hquotes hx ih => exact hlater (ih h)
  | case6 i x d rest hquotes hx ih =>
    rcases List.mem_cons.1 h with heq | hmem
    · cases heq; exact hhere ..
    · exact hlater (ih hmem)

theorem le_of_mem_visible {style : Style} {i : Nat} {cs : List Char} {e : Nat × Char}
    (h : e ∈ visible nextIndex style i cs) : i ≤ e.1 :=
  (getElem?_of_mem_visible h).1

/-- The place of index `k` in a text whose first character has index `i` and place `p`. -/
def placeOf (p : Position) (i : Nat) (cs : List Char) (k : Nat) : Position :=
  (cs.take (k - i)).foldl Position.advance p

theorem placeOf_cons {i k : Nat} (h : i + 1 ≤ k) (p : Position) (c : Char) (cs : List Char) :
    placeOf p i (c :: cs) k = placeOf (p.advance c) (i + 1) cs k := by
  obtain ⟨m, rfl⟩ := Nat.exists_eq_add_of_le h
  rw [placeOf, placeOf, Nat.add_sub_cancel_left, show i + 1 + m - i = m + 1 from by omega]
  rfl

theorem placeOf_self (p : Position) (i : Nat) (cs : List Char) : placeOf p i cs i = p := by
  rw [placeOf, Nat.sub_self]
  rfl

/-- The place of each visible character is that of its index. -/
theorem visible_advance (style : Style) (p : Position) (i : Nat) (cs : List Char) :
    visible Position.advance style p cs =
      (visible nextIndex style i cs).map fun e => (placeOf p i cs e.1, e.2) := by
  fun_induction visible nextIndex style i cs generalizing p with
  | case1 => rfl
  | case2 i c hc => rw [visible_white _ _ hc]; rfl
  | case3 i c hc => simp [visible_ink, hc, placeOf_self]
  | case4 i c d rest hquotes ih =>
    obtain ⟨hstyle, rfl, rfl⟩ := hquotes
    rw [visible_quotes _ _ hstyle, ih, List.map_cons, placeOf_self]
    refine congrArg _ (List.map_congr_left fun e he => ?_)
    have hle : i + 1 + 1 ≤ e.1 := le_of_mem_visible he
    rw [placeOf_cons (Nat.le_of_succ_le hle), placeOf_cons hle]
    rfl
  | case5 i c d rest hquotes hc ih =>
    rw [visible_white _ _ hc, ih]
    refine List.map_congr_left fun e he => ?_
    rw [placeOf_cons (le_of_mem_visible he)]
    rfl
  | case6 i c d rest hquotes hc ih =>
    rw [visible_ink _ _ hc (by simpa using hquotes), ih, List.map_cons, placeOf_self]
    refine congrArg _ (List.map_congr_left fun e he => ?_)
    rw [placeOf_cons (le_of_mem_visible he)]
    rfl

theorem mem_visible_plain {cs : List Char} {m : Nat} {c : Char} (hm : cs[m]? = some c)
    (hc : ¬Text.isWhite c) (i : Nat) : (i + m, c) ∈ visible nextIndex .plain i cs := by
  induction cs generalizing i m with
  | nil => cases hm
  | cons x cs ih =>
    have hplain : ¬(Style.plain = .single ∧ x = '\'' ∧ cs.head? = some '\'') := by simp
    cases m with
    | zero =>
      cases hm
      rw [visible_ink _ _ hc hplain]
      exact List.mem_cons_self ..
    | succ m =>
      have hmem : (i + (m + 1), c) ∈ visible nextIndex .plain (nextIndex i x) cs := by
        rw [show i + (m + 1) = nextIndex i x + m from by rw [nextIndex]; omega]
        exact ih hm _
      by_cases hx : Text.isWhite x
      · rwa [visible_white _ _ hx]
      · rw [visible_ink _ _ hx hplain]
        exact List.mem_cons_of_mem _ hmem

/-! ### Reading value and source side by side -/

section Locate

variable {style : Style} (hstyle : style ≠ .double) {c : Char}

include hstyle

theorem locate_cons (c next : Char) (rest : List Char) (p : Position) :
    locate style c ⟨next :: rest, p⟩ =
      let after : SourceText := ⟨rest, p.advance next⟩
      if next = c then
        (p, if style = .single ∧ c = '\'' ∧ rest.head? = some '\'' then after.bump else after)
      else if next = '\n' ∧ c = ' ' then (p, after)
      else if Text.isWhite next then locate style c after
      else if Text.isWhite c then (p, ⟨next :: rest, p⟩)
      else (p, after) := by
  rw [locate.eq_def]
  simp only [hstyle, false_and, if_false]

/-- White space of the value leaves the visible characters of the source where they are. -/
theorem visible_locate_white (hc : Text.isWhite c) (cs : List Char) (p : Position) :
    let after := (locate style c ⟨cs, p⟩).2
    visible Position.advance style after.position after.rest =
      visible Position.advance style p cs := by
  induction cs generalizing p with
  | nil => rw [locate]
  | cons next cs ih =>
    rw [locate_cons hstyle]
    dsimp only
    by_cases hnext : Text.isWhite next
    · rw [visible_white _ _ hnext]
      split
      · rename_i heq
        subst heq
        have hquote : next ≠ '\'' := by rintro rfl; exact absurd hc (by decide)
        simp only [hquote, false_and, and_false, if_false]
      · split
        · rfl
        · exact ih _
    · have hne : next ≠ c := by rintro rfl; exact hnext hc
      have hbreak : next ≠ '\n' := by rintro rfl; exact hnext (by decide)
      simp only [hne, hbreak, hnext, hc, false_and, if_false, if_true, Bool.false_eq_true]

/-- A visible character of the value is placed at the next visible one of the source, if that is the
    same. -/
theorem locate_visible (hc : ¬Text.isWhite c) {cs : List Char} {p q : Position}
    {rest : List (Position × Char)}
    (h : visible Position.advance style p cs = (q, c) :: rest) :
    let (place, after) := locate style c ⟨cs, p⟩
    place = q ∧ visible Position.advance style after.position after.rest = rest := by
  induction cs generalizing p with
  | nil => cases h
  | cons next cs ih =>
    rw [locate_cons hstyle]
    dsimp only
    by_cases hnext : Text.isWhite next
    · have hne : next ≠ c := by rintro rfl; exact hc hnext
      have hblank : c ≠ ' ' := by rintro rfl; exact hc (by decide)
      rw [visible_white _ _ hnext] at h
      simp only [hne, hblank, hnext, and_false, if_false, if_true]
      exact ih h
    · by_cases hquotes : style = .single ∧ next = '\'' ∧ cs.head? = some '\''
      · obtain ⟨rfl, rfl, hhead⟩ := hquotes
        obtain ⟨cs, rfl⟩ : ∃ tail, cs = '\'' :: tail := by
          cases cs with
          | nil => cases hhead
          | cons d tail => cases hhead; exact ⟨tail, rfl⟩
        rw [visible_quotes _ _ rfl] at h
        obtain ⟨hfirst, rfl⟩ := List.cons.inj h
        cases hfirst
        simp [SourceText.bump]
      · rw [visible_ink _ _ hnext hquotes] at h
        obtain ⟨hfirst, rfl⟩ := List.cons.inj h
        cases hfirst
        simp only [if_true]
        rw [if_neg hquotes]
        exact ⟨trivial, rfl⟩

/-- The invariant of reading side by side: what is left of the value and of the source has the same
    visible characters. Each of those of the value is placed at its counterpart. -/
theorem placements_visible {value : List Char} {i : Nat} (offset : Nat) {s : SourceText}
    (hsame : (visible nextIndex .plain i value).map Prod.snd =
      (visible Position.advance style s.position s.rest).map Prod.snd)
    {n k : Nat} {c : Char} (hn : (visible nextIndex .plain i value)[n]? = some (k, c)) :
    ∃ q, (visible Position.advance style s.position s.rest)[n]? = some (q, c) ∧
      (placements style value offset s)[k - i]? =
        some (offset + byteSize (value.take (k - i)), q) := by
  induction value generalizing i offset s n with
  | nil => cases hn
  | cons x value ih =>
    obtain ⟨cs, p⟩ := s
    have hplain : ¬(Style.plain = .single ∧ x = '\'' ∧ value.head? = some '\'') := by simp
    -- a later character of the value is placed by what comes after this one
    have hlater (q : Position) (after : SourceText) (hk : i + 1 ≤ k)
        (hplace : (placements style value (offset + x.utf8Size) after)[k - (i + 1)]? =
          some (offset + x.utf8Size + byteSize (value.take (k - (i + 1))), q)) (place : Position) :
        ((offset, place) :: placements style value (offset + x.utf8Size) after)[k - i]? =
          some (offset + byteSize ((x :: value).take (k - i)), q) := by
      obtain ⟨m, rfl⟩ := Nat.exists_eq_add_of_le hk
      rw [show i + 1 + m - i = m + 1 from by omega, List.getElem?_cons_succ]
      rw [Nat.add_sub_cancel_left] at hplace
      rw [hplace, Nat.add_assoc]
      rfl
    rw [placements]
    by_cases hx : Text.isWhite x
    · rw [visible_white _ _ hx] at hsame hn
      have hlocate := visible_locate_white hstyle hx cs p
      dsimp only at hlocate hsame ⊢
      rw [← hlocate] at hsame ⊢
      obtain ⟨q, hq, hplace⟩ := ih (offset + x.utf8Size) hsame hn
      have hk := le_of_mem_visible (List.mem_of_getElem? hn)
      exact ⟨q, hq, hlater q _ hk hplace _⟩
    · rw [visible_ink _ _ hx hplain] at hsame hn
      dsimp only at hsame ⊢
      cases hsource : visible Position.advance style p cs with
      | nil => rw [hsource] at hsame; cases hsame
      | cons first rest =>
        obtain ⟨q, y⟩ := first
        rw [hsource, List.map_cons, List.map_cons] at hsame
        obtain ⟨hxy, htail⟩ := List.cons.inj hsame
        obtain rfl : x = y := hxy
        obtain ⟨hplace, hrest⟩ := locate_visible hstyle hx hsource
        cases n with
        | zero =>
          cases hn
          exact ⟨q, rfl, by rw [Nat.sub_self, hplace]; rfl⟩
        | succ n =>
          rw [← hrest] at htail
          rw [List.getElem?_cons_succ] at hn
          obtain ⟨q', hq', hlast⟩ := ih (offset + x.utf8Size) htail hn
          have hk := le_of_mem_visible (List.mem_of_getElem? hn)
          rw [hrest] at hq'
          exact ⟨q', hq', hlater q' _ hk hlast _⟩

end Locate

/-! ### Runs -/

namespace Run

theorem positionAt_self (r : Run) : r.positionAt r.offset = r.position := by
  rw [positionAt, Nat.sub_self]
  rfl

theorem offset_of_mem_compressFrom {last r : Run} {places : List (Nat × Position)}
    (h : r ∈ compressFrom last places) : r.offset ∈ places.map Prod.fst := by
  induction places generalizing last with
  | nil => cases h
  | cons place places ih =>
    rw [compressFrom] at h
    split at h
    · exact List.mem_cons_of_mem _ (ih h)
    · rcases List.mem_cons.1 h with rfl | hmem
      · exact List.mem_cons_self ..
      · exact List.mem_cons_of_mem _ (ih hmem)

/-- No run counts that begins with a later place. -/
theorem getLast?_of_later (run : Run) {places : List (Nat × Position)} {offset : Nat}
    (hrun : run.offset ≤ offset) (hlater : ∀ o ∈ places.map Prod.fst, offset < o) :
    ((run :: compressFrom run places).takeWhile (·.offset ≤ offset)).getLast? = some run := by
  have hnone : (compressFrom run places).takeWhile (·.offset ≤ offset) = [] := by
    rw [List.takeWhile_eq_nil_iff]
    intro hlen hle
    have := hlater _ (offset_of_mem_compressFrom (List.get_mem _ ⟨0, hlen⟩))
    simp only [decide_eq_true_eq] at hle
    omega
  rw [List.takeWhile_cons_of_pos (by simpa using hrun), hnone]
  rfl

/-- The last run that begins at or before an offset puts it where it belongs. -/
theorem getLast?_compressFrom (last : Run) {places : List (Nat × Position)}
    (hsorted : (last.offset :: places.map Prod.fst).Pairwise (· < ·)) {offset : Nat} {p : Position}
    (h : (offset, p) ∈ places) :
    ∃ r, ((last :: compressFrom last places).takeWhile (·.offset ≤ offset)).getLast? = some r ∧
      r.positionAt offset = p := by
  induction places generalizing last with
  | nil => cases h
  | cons place places ih =>
    obtain ⟨o, q⟩ := place
    rw [List.map_cons] at hsorted
    obtain ⟨hfirst, hrest⟩ := List.pairwise_cons.1 hsorted
    obtain ⟨ho, hplaces⟩ := List.pairwise_cons.1 hrest
    have hlast : last.offset < o := hfirst o (List.mem_cons_self ..)
    rw [compressFrom]
    split
    · rename_i hpos
      rcases List.mem_cons.1 h with heq | hmem
      · cases heq
        exact ⟨last, getLast?_of_later last (Nat.le_of_lt hlast) ho, hpos⟩
      · refine ih last (List.pairwise_cons.2 ⟨fun x hx => ?_, hplaces⟩) hmem
        exact hfirst x (List.mem_cons_of_mem _ hx)
    · have hstart : last.offset ≤ offset := by
        exact Nat.le_of_lt (hfirst offset (List.mem_map_of_mem h))
      rw [List.takeWhile_cons_of_pos (by simpa using hstart)]
      rcases List.mem_cons.1 h with heq | hmem
      · cases heq
        refine ⟨⟨offset, p⟩, ?_, positionAt_self _⟩
        rw [List.getLast?_cons, getLast?_of_later ⟨offset, p⟩ (Nat.le_refl _) ho]
        rfl
      · obtain ⟨r, hr, hpos⟩ := ih ⟨o, q⟩ hrest hmem
        refine ⟨r, ?_, hpos⟩
        rw [List.getLast?_cons, hr]
        rfl

end Run

theorem pairwise_placements (style : Style) (value : List Char) (offset : Nat) (s : SourceText) :
    ((placements style value offset s).map Prod.fst).Pairwise (· < ·) ∧
      ∀ o ∈ (placements style value offset s).map Prod.fst, offset ≤ o := by
  induction value generalizing offset s with
  | nil => exact ⟨List.Pairwise.nil, fun o ho => by cases ho⟩
  | cons c value ih =>
    obtain ⟨hsorted, hle⟩ := ih (offset + c.utf8Size) (locate style c s).2
    have hsize := c.utf8Size_pos
    rw [placements, List.map_cons]
    refine ⟨List.pairwise_cons.2 ⟨fun o ho => ?_, hsorted⟩, fun o ho => ?_⟩
    · have := hle o ho
      omega
    · rcases List.mem_cons.1 ho with rfl | hmem
      · exact Nat.le_refl _
      · have := hle o hmem
        omega

/-- The runs of a value lead each placed offset to its place. -/
theorem getLast?_align {style : Style} {value body : List Char} {start : Position} {offset : Nat}
    {p : Position} (h : (offset, p) ∈ placements style value 0 ⟨body, start⟩) :
    ∃ r, ((align style value body start).takeWhile (·.offset ≤ offset)).getLast? = some r ∧
      r.positionAt offset = p := by
  obtain ⟨hsorted, -⟩ := pairwise_placements style value 0 ⟨body, start⟩
  rw [align]
  cases hplaces : placements style value 0 ⟨body, start⟩ with
  | nil => rw [hplaces] at h; cases h
  | cons first rest =>
    obtain ⟨o, q⟩ := first
    rw [hplaces] at h hsorted
    rw [List.map_cons] at hsorted
    rw [Run.compress]
    rcases List.mem_cons.1 h with heq | hmem
    · cases heq
      refine ⟨⟨offset, p⟩, ?_, Run.positionAt_self _⟩
      exact Run.getLast?_of_later ⟨offset, p⟩ (Nat.le_refl _) (List.pairwise_cons.1 hsorted).1
    · exact Run.getLast?_compressFrom ⟨o, q⟩ hsorted hmem

theorem byteSize_toList (s : String) : byteSize s.toList = s.utf8ByteSize := by
  rw [← Text.byteSize_ofList, String.ofList_toList]

theorem byteSize_take_le (cs : List Char) (n : Nat) : byteSize (cs.take n) ≤ byteSize cs := by
  have happend := Text.byteSize_append (cs.take n) (cs.drop n)
  rw [List.take_append_drop] at happend
  omega

/-- Value and source have the same visible characters. -/
def SameInk (style : Style) (body value : List Char) : Prop :=
  (visibleAt style body).map Prod.snd = (visibleAt .plain value).map Prod.snd

/-- The character of the source with index `j` is what the character of the value with index `k` is
    decoded from: they are the same, and as many visible ones come before both. -/
def DecodesTo (style : Style) (body value : List Char) (j k : Nat) : Prop :=
  ∃ (n : Nat) (c : Char), (visibleAt style body)[n]? = some (j, c) ∧
    (visibleAt .plain value)[n]? = some (k, c)

theorem DecodesTo.getElem?_eq {style : Style} {body value : List Char} {j k : Nat}
    (h : DecodesTo style body value j k) : body[j]? = value[k]? := by
  obtain ⟨n, c, hbody, hvalue⟩ := h
  have hj := (getElem?_of_mem_visible (List.mem_of_getElem? hbody)).2
  have hk := (getElem?_of_mem_visible (List.mem_of_getElem? hvalue)).2
  rw [Nat.sub_zero] at hj hk
  rw [hj, hk]

/-- The offset of a visible character of the value leads to what it is decoded from. -/
theorem positionAt_of_sameInk {s : Scalar} {body : List Char} {start : Position}
    (hruns : s.runs = align s.style s.value.toList body start) (hstyle : s.style ≠ .double)
    (hink : SameInk s.style body s.value.toList) {k : Nat} {c : Char}
    (hk : s.value.toList[k]? = some c) (hc : ¬Text.isWhite c) :
    ∃ j, DecodesTo s.style body s.value.toList j k ∧
      s.positionAt (byteSize (s.value.toList.take k)) = placeOf start 0 body j := by
  obtain ⟨n, hn⟩ := List.mem_iff_getElem?.1 (mem_visible_plain hk hc 0)
  rw [Nat.zero_add] at hn
  have hsame : (visible nextIndex .plain 0 s.value.toList).map Prod.snd =
      (visible Position.advance s.style start body).map Prod.snd := by
    rw [visible_advance s.style start 0, List.map_map]
    exact hink.symm
  obtain ⟨q, hq, hplace⟩ := placements_visible hstyle 0 (s := ⟨body, start⟩) hsame hn
  rw [visible_advance s.style start 0, List.getElem?_map, Option.map_eq_some_iff] at hq
  obtain ⟨⟨j, d⟩, hj, heq⟩ := hq
  cases heq
  rw [Nat.sub_zero, Nat.zero_add] at hplace
  obtain ⟨r, hr, hpos⟩ := getLast?_align (List.mem_of_getElem? hplace)
  refine ⟨j, ⟨n, _, hj, hn⟩, ?_⟩
  rw [Scalar.positionAt, ← byteSize_toList, Nat.min_eq_left (byteSize_take_le _ _), hruns, hr]
  exact hpos

end WorkflowAudit.Yaml
