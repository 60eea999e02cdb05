import Mathlib
import WorkflowAudit.Pattern.Basic

/-!
What it means for a pattern to match. A match goes from one place of a text to another, and a pattern
that is made of others matches as these do. Main statements: the places that are computed for a pattern
are those where its matches end, however often a part of it is repeated, and the place where it is found
is the first that a match begins at.
-/

namespace WorkflowAudit.Pattern

/-! ### Repeated steps -/

/-- `n` steps of a relation lead from `i` to `j`. -/
inductive Iterates (r : Nat → Nat → Prop) : Nat → Nat → Nat → Prop
  | done (i : Nat) : Iterates r 0 i i
  | step {n i k j : Nat} : r i k → Iterates r n k j → Iterates r (n + 1) i j

namespace Iterates

variable {r : Nat → Nat → Prop} {m n i j k : Nat}

theorem trans (hm : Iterates r m i k) (hn : Iterates r n k j) : Iterates r (m + n) i j := by
  induction hm with
  | done => rwa [Nat.zero_add]
  | step hr _ ih =>
    rw [Nat.add_right_comm]
    exact .step hr (ih hn)

theorem exists_of_add (h : Iterates r (m + n) i j) : ∃ k, Iterates r m i k ∧ Iterates r n k j := by
  induction m generalizing i with
  | zero => exact ⟨i, .done i, by rwa [Nat.zero_add] at h⟩
  | succ m ih =>
    rw [Nat.add_right_comm] at h
    obtain ⟨hr, hrest⟩ : ∃ k, r i k ∧ Iterates r (m + n) k j := by
      cases h with
      | step hr hrest => exact ⟨_, hr, hrest⟩
    obtain ⟨k, hm, hn⟩ := ih hrest.2
    exact ⟨k, .step hrest.1 hm, hn⟩

theorem le (hle : ∀ i k, r i k → i ≤ k) (h : Iterates r n i j) : i ≤ j := by
  induction h with
  | done => exact Nat.le_refl _
  | step hr _ ih => exact (hle _ _ hr).trans ih

/-- Steps that stay where they are can be left out, so that no more are needed than there are places on
    the way. -/
theorem exists_le_sub (hle : ∀ i k, r i k → i ≤ k) (h : Iterates r n i j) :
    ∃ m ≤ j - i, Iterates r m i j := by
  induction h with
  | done i => exact ⟨0, Nat.zero_le _, .done i⟩
  | @step n i k j hr hrest ih =>
    obtain ⟨m, hm, hsteps⟩ := ih
    have hik := hle _ _ hr
    have hkj := hrest.le hle
    rcases hik.eq_or_lt with rfl | hlt
    · exact ⟨m, hm, hsteps⟩
    · exact ⟨m + 1, by omega, .step hr hsteps⟩

theorem congr {r' : Nat → Nat → Prop} (hr : ∀ i k, r i k ↔ r' i k) :
    Iterates r n i j ↔ Iterates r' n i j := by
  rw [show r = r' from funext₂ fun i k => propext (hr i k)]

end Iterates

/-! ### Searching step by step -/

section Search

variable {step : Nat → List Nat} {places : List Nat} {n j : Nat}

theorem mem_advance : j ∈ advance step places ↔ ∃ i ∈ places, j ∈ step i := by
  rw [advance, List.mem_eraseDups, List.mem_flatMap]

theorem mem_exactly :
    j ∈ exactly step n places ↔ ∃ i ∈ places, Iterates (fun i k => k ∈ step i) n i j := by
  induction n generalizing places with
  | zero =>
    refine ⟨fun h => ⟨j, h, .done j⟩, fun ⟨i, hi, h⟩ => ?_⟩
    cases h
    exact hi
  | succ n ih =>
    rw [exactly, ih]
    constructor
    · rintro ⟨k, hk, hrest⟩
      obtain ⟨i, hi, hstep⟩ := mem_advance.1 hk
      exact ⟨i, hi, .step hstep hrest⟩
    · rintro ⟨i, hi, h⟩
      cases h with
      | step hstep hrest => exact ⟨_, mem_advance.2 ⟨i, hi, hstep⟩, hrest⟩

/-- The places that one more round of a search comes to for the first time. -/
def fresh (step : Nat → List Nat) (seen frontier : List Nat) : List Nat :=
  (advance step frontier).filter fun p => !seen.contains p

/-- A search that comes to no new place stays as it is. -/
theorem within_nil (n : Nat) (seen : List Nat) : within step n seen [] = seen := by
  cases n <;> simp [within, advance]

theorem within_succ (n : Nat) (seen frontier : List Nat) :
    within step (n + 1) seen frontier =
      within step n (seen ++ fresh step seen frontier) (fresh step seen frontier) := by
  rw [within]
  split
  · rename_i hempty
    have hnone : fresh step seen frontier = [] := List.isEmpty_iff.1 hempty
    rw [hnone, List.append_nil, within_nil]
  · rfl

/-- Between two rounds of a search: all that is on the frontier has been seen, and what has been seen
    before leads only to what has been seen. -/
structure Searched (step : Nat → List Nat) (seen frontier : List Nat) : Prop where
  subset : ∀ p ∈ frontier, p ∈ seen
  closed : ∀ p ∈ seen, p ∉ frontier → ∀ q ∈ step p, q ∈ seen

/-- One round: whatever a step leads to from a place that has been seen has been seen afterwards. -/
theorem Searched.mem_of_step {seen frontier : List Nat} (h : Searched step seen frontier) {p q : Nat}
    (hp : p ∈ seen) (hq : q ∈ step p) : q ∈ seen ++ fresh step seen frontier := by
  by_cases hfrontier : p ∈ frontier
  · by_cases hseen : q ∈ seen
    · exact List.mem_append_left _ hseen
    · refine List.mem_append_right _ (List.mem_filter.2 ⟨mem_advance.2 ⟨p, hfrontier, hq⟩, ?_⟩)
      simpa using hseen
  · exact List.mem_append_left _ (h.closed p hp hfrontier q hq)

theorem Searched.next {seen frontier : List Nat} (h : Searched step seen frontier) :
    Searched step (seen ++ fresh step seen frontier) (fresh step seen frontier) where
  subset _ hp := List.mem_append_right _ hp
  closed _ hp hnot _ hq := h.mem_of_step ((List.mem_append.1 hp).resolve_right hnot) hq

/-- All rounds: the search finds what at most `n` steps lead to from a place that has been seen. -/
theorem Searched.mem_within {seen frontier : List Nat} (h : Searched step seen frontier) :
    j ∈ within step n seen frontier ↔
      ∃ i ∈ seen, ∃ m ≤ n, Iterates (fun i k => k ∈ step i) m i j := by
  induction n generalizing seen frontier with
  | zero =>
    refine ⟨fun hj => ⟨j, hj, 0, Nat.le_refl 0, .done j⟩, ?_⟩
    rintro ⟨i, hi, m, hm, hsteps⟩
    cases Nat.le_zero.1 hm
    cases hsteps
    exact hi
  | succ n ih =>
    rw [within_succ, ih h.next]
    constructor
    · rintro ⟨i, hi, m, hm, hsteps⟩
      rcases List.mem_append.1 hi with hseen | hfresh
      · exact ⟨i, hseen, m, Nat.le_succ_of_le hm, hsteps⟩
      · obtain ⟨p, hp, hstep⟩ := mem_advance.1 (List.mem_filter.1 hfresh).1
        exact ⟨p, h.subset p hp, m + 1, Nat.succ_le_succ hm, .step hstep hsteps⟩
    · rintro ⟨i, hi, m, hm, hsteps⟩
      cases hsteps with
      | done => exact ⟨_, List.mem_append_left _ hi, 0, Nat.zero_le _, .done _⟩
      | step hstep hrest => exact ⟨_, h.mem_of_step hi hstep, _, Nat.le_of_succ_le_succ hm, hrest⟩

theorem searched_self (places : List Nat) : Searched step places places :=
  ⟨fun _ h => h, fun _ h hnot => absurd h hnot⟩

end Search

/-! ### Matches -/

/-- The pattern matches from place `i` to place `j` of a text. -/
def Matches (text : Array Char) : Pattern → Nat → Nat → Prop
  | .empty, i, j => j = i
  | .one set, i, j => text[i]?.any set.contains ∧ j = i + 1
  | .seq first second, i, j => ∃ k, first.Matches text i k ∧ second.Matches text k j
  | .alt first second, i, j => first.Matches text i j ∨ second.Matches text i j
  | .many body least most, i, j =>
    ∃ n, least ≤ n ∧ (∀ m ∈ most, n ≤ max least m) ∧ Iterates (body.Matches text) n i j
  | .place anchor, i, j => anchor.holds (if i = 0 then none else text[i - 1]?) text[i]? ∧ j = i

variable {text : Array Char} {p : Pattern} {i j : Nat}

/-- A match goes forward, and no further than to the end of the text. -/
theorem Matches.bounds (h : p.Matches text i j) : i ≤ j ∧ (j = i ∨ j ≤ text.size) := by
  induction p generalizing i j with
  | empty => exact ⟨Nat.le_of_eq h.symm, .inl h⟩
  | one set =>
    obtain ⟨hany, rfl⟩ := h
    obtain ⟨c, hc, -⟩ := (Option.any_eq_true ..).1 hany
    obtain ⟨hlt, -⟩ := Array.getElem?_eq_some_iff.1 hc
    exact ⟨Nat.le_succ i, .inr hlt⟩
  | seq first second ihfirst ihsecond =>
    obtain ⟨k, hfirst, hsecond⟩ := h
    have := ihfirst hfirst
    have := ihsecond hsecond
    omega
  | alt first second ihfirst ihsecond => exact h.elim ihfirst ihsecond
  | many body least most ih =>
    obtain ⟨n, -, -, hsteps⟩ := h
    induction hsteps with
    | done => exact ⟨Nat.le_refl _, .inl rfl⟩
    | step hbody _ ihsteps =>
      have := ih hbody
      omega
  | place anchor => exact ⟨Nat.le_of_eq h.2.symm, .inl h.2⟩

/-- More repetitions than there are places on the way are not needed. -/
theorem exists_short_iterates {n : Nat} (h : Iterates (p.Matches text) n i j) :
    ∃ m ≤ text.size + 1, Iterates (p.Matches text) m i j := by
  obtain ⟨m, hm, hsteps⟩ := h.exists_le_sub fun _ _ hstep => hstep.bounds.1
  have hmany : (Pattern.many p 0 none).Matches text i j := ⟨n, Nat.zero_le n, by simp, h⟩
  have := hmany.bounds
  exact ⟨m, by omega, hsteps⟩

/-- The places that are computed for a pattern are those where its matches end. -/
theorem mem_ends : j ∈ p.ends text i ↔ p.Matches text i j := by
  induction p generalizing i j with
  | empty => exact List.mem_singleton
  | one set =>
    rw [ends, Matches]
    split <;> simp_all
  | seq first second ihfirst ihsecond =>
    rw [ends, mem_advance, Matches]
    exact exists_congr fun k => and_congr ihfirst ihsecond
  | alt first second ihfirst ihsecond =>
    rw [ends, List.mem_eraseDups, List.mem_append, Matches, ihfirst, ihsecond]
  | many body least most ih =>
    have hsame {n i j : Nat} : Iterates (fun i k => k ∈ body.ends text i) n i j ↔
        Iterates (body.Matches text) n i j := Iterates.congr fun _ _ => ih
    rw [ends.eq_def, Matches]
    simp only [(searched_self _).mem_within, mem_exactly, List.mem_singleton, exists_eq_left, hsame]
    constructor
    · rintro ⟨k, hleast, m, hm, hmore⟩
      refine ⟨least + m, Nat.le_add_right .., fun most' hmost => ?_, hleast.trans hmore⟩
      cases hmost
      dsimp only at hm
      omega
    · rintro ⟨n, hn, hmost, hsteps⟩
      obtain ⟨r, rfl⟩ := Nat.exists_eq_add_of_le hn
      obtain ⟨k, hleast, hmore⟩ := hsteps.exists_of_add
      refine ⟨k, hleast, ?_⟩
      cases most with
      | none => exact exists_short_iterates hmore
      | some most =>
        have hr : r ≤ most - least := by
          have := hmost most rfl
          omega
        exact ⟨r, hr, hmore⟩
  | place anchor =>
    rw [ends.eq_def, Matches]
    dsimp only
    split <;> simp_all

/-! ### Finding -/

variable {line : List Char}

/-- The pattern matches from place `i` to place `j` of a line, both in it. -/
def MatchesIn (p : Pattern) (line : List Char) (i j : Nat) : Prop :=
  i ≤ line.length ∧ p.Matches line.toArray i j

theorem MatchesIn.bounds (h : p.MatchesIn line i j) : i ≤ j ∧ j ≤ line.length := by
  have hbounds := h.2.bounds
  have := h.1
  rw [List.size_toArray] at hbounds
  omega

/-- A pattern is found at the first place that a match begins at. -/
theorem find?_eq_some_iff : p.find? line = some i ↔
    (∃ j, p.MatchesIn line i j) ∧ ∀ i' j', p.MatchesIn line i' j' → i ≤ i' := by
  have hends (k : Nat) : !(p.ends line.toArray k).isEmpty ↔ ∃ j, p.Matches line.toArray k j := by
    simp only [← mem_ends, Bool.not_eq_true', List.isEmpty_eq_false_iff_exists_mem]
  have hlater {k : Nat} : !(!(p.ends line.toArray k).isEmpty) ↔ ¬∃ j, p.Matches line.toArray k j := by
    rw [← hends, Bool.not_eq_true', Bool.not_eq_true]
  rw [find?, List.find?_range_eq_some, hends, List.mem_range, Nat.lt_succ_iff]
  constructor
  · rintro ⟨⟨j, hj⟩, hi, hbefore⟩
    refine ⟨⟨j, hi, hj⟩, fun i' j' hmatch => ?_⟩
    by_contra hlt
    exact hlater.1 (hbefore i' (Nat.lt_of_not_le hlt)) ⟨j', hmatch.2⟩
  · rintro ⟨⟨j, hi, hj⟩, hfirst⟩
    refine ⟨⟨j, hj⟩, hi, fun k hk => hlater.2 ?_⟩
    rintro ⟨j', hj'⟩
    exact Nat.not_le_of_lt hk (hfirst k j' ⟨hk.le.trans hi, hj'⟩)

/-- What is the first place with a match is there as soon as there is a match. -/
theorem isSome_iff_of_first {found : Option Nat} {r : Nat → Nat → Prop}
    (h : ∀ i, found = some i ↔ (∃ j, r i j) ∧ ∀ i' j', r i' j' → i ≤ i') :
    found.isSome ↔ ∃ i j, r i j := by
  rw [Option.isSome_iff_exists]
  constructor
  · rintro ⟨i, hi⟩
    exact ⟨i, ((h i).1 hi).1⟩
  · intro hsome
    classical
    exact ⟨Nat.find hsome,
      (h _).2 ⟨Nat.find_spec hsome, fun i' j' h' => Nat.find_min' hsome ⟨j', h'⟩⟩⟩

/-- A pattern is in a text if it matches somewhere. -/
theorem isIn_iff {s : String} : p.isIn s ↔ ∃ i j, p.MatchesIn s.toList i j :=
  isSome_iff_of_first fun _ => find?_eq_some_iff

end WorkflowAudit.Pattern
