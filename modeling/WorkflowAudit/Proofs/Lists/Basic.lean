import Mathlib

/-!
Lists: what they begin with, searching and filtering them, the sum after one element is replaced, and
sorting.
-/

namespace List

variable {α β : Type}

theorem length_takeWhile_le (f : α → Bool) (l : List α) : (l.takeWhile f).length ≤ l.length :=
  (List.takeWhile_prefix f).length_le

theorem take_length_takeWhile (f : α → Bool) (l : List α) :
    l.take (l.takeWhile f).length = l.takeWhile f :=
  (prefix_iff_eq_take.1 (List.takeWhile_prefix f)).symm

theorem length_le_takeWhile {f : α → Bool} {l rest : List α} (h : ∀ a ∈ l, f a) :
    l.length ≤ ((l ++ rest).takeWhile f).length := by
  rw [takeWhile_append_of_pos h, length_append]
  exact Nat.le_add_right _ _

theorem find?_filter_of_imp {p q : α → Bool} {xs : List α} (h : ∀ a, q a → p a) :
    (xs.filter p).find? q = xs.find? q := by
  rw [find?_filter]
  refine find?_congr fun a _ => ?_
  simpa using h a

theorem filterMap_filter_of_isSome {p : α → Bool} {f : α → Option β} {xs : List α}
    (h : ∀ a, (f a).isSome → p a) : (xs.filter p).filterMap f = xs.filterMap f := by
  rw [filterMap_filter]
  refine filterMap_congr fun a _ => ?_
  split
  · rfl
  · rename_i hp
    exact (Option.not_isSome_iff_eq_none.1 fun hf => hp (h a hf)).symm

/-- A search that can only find one thing finds it in any order. -/
theorem findSome?_eq_of_only {f : α → Option β} {items : List α} {found : Option β}
    (honly : ∀ item ∈ items, f item = none ∨ f item = found)
    (hthere : found ≠ none → ∃ item ∈ items, f item = found) : items.findSome? f = found := by
  cases hfind : items.findSome? f with
  | some b =>
    obtain ⟨item, hitem, hb⟩ := List.exists_of_findSome?_eq_some hfind
    rcases honly item hitem with h | h
    · simp [hb] at h
    · exact hb.symm.trans h
  | none =>
    by_contra hne
    obtain ⟨item, hitem, hfound⟩ := hthere (Ne.symm hne)
    exact hne ((List.findSome?_eq_none_iff.1 hfind item hitem).symm.trans hfound)

theorem sum_map_set (f : α → Nat) {l : List α} {i : Nat} {a : α} (h : l[i]? = some a)
    (a' : α) : ((l.set i a').map f).sum + f a = (l.map f).sum + f a' := by
  induction l generalizing i with
  | nil => cases h
  | cons x l ih =>
    cases i with
    | zero =>
      cases h
      simp only [List.set_cons_zero, List.map_cons, List.sum_cons]
      omega
    | succ i =>
      have ih := ih (i := i) h
      simp only [List.set_cons_succ, List.map_cons, List.sum_cons]
      omega

section Sorting

variable {le : α → α → Bool} (htrans : ∀ a b c, le a b → le b c → le a c)
  (htotal : ∀ a b, le a b || le b a)

include htrans htotal

/-- Where an element stands in a sorted list: after all that it is not before. -/
theorem mergeSort_cons_eq_filter (a : α) (l : List α) :
    (a :: l).mergeSort le =
      ((l.mergeSort le).filter fun b => !le a b) ++ a :: (l.mergeSort le).filter (le a) := by
  obtain ⟨before, after, hcons, hl, hbefore⟩ := List.mergeSort_cons htrans htotal a l
  have hsorted := List.pairwise_mergeSort htrans htotal (a :: l)
  rw [hcons] at hsorted
  have hafter := (List.pairwise_cons.1 (List.pairwise_append.1 hsorted).2.1).1
  rw [hcons, hl, List.filter_append, List.filter_append, List.filter_eq_self.2 hbefore,
    List.filter_eq_nil_iff.2 (by simpa using hafter), List.append_nil,
    List.filter_eq_nil_iff.2 (by simpa using hbefore), List.filter_eq_self.2 hafter, List.nil_append]

/-- Sorting keeps sublists: elements that are left out do not change the order of the others. -/
theorem mergeSort_sublist {few many : List α} (h : few.Sublist many) :
    (few.mergeSort le).Sublist (many.mergeSort le) := by
  induction h with
  | slnil => exact List.Sublist.refl _
  | cons a h ih =>
    obtain ⟨before, after, hcons, hmany, -⟩ := List.mergeSort_cons htrans htotal a _
    rw [hcons]
    rw [hmany] at ih
    exact ih.trans (List.Sublist.append_left (List.sublist_cons_self a after) before)
  | cons_cons a h ih =>
    rw [mergeSort_cons_eq_filter htrans htotal, mergeSort_cons_eq_filter htrans htotal]
    exact (ih.filter _).append ((ih.filter _).cons_cons a)

end Sorting

end List
