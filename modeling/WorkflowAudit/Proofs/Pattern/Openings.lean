import WorkflowAudit.Proofs.Pattern.Matching

/-!
How matches begin. Main statement: a match of a pattern that opens with visible characters begins with
one of them.
-/

namespace WorkflowAudit

/-- The code points of the white space characters. -/
def Text.whiteCodes : List Nat :=
  whiteRanges.flatMap fun (low, high) => List.range' low (high + 1 - low)

theorem Text.mem_whiteCodes {c : Char} (h : isWhite c) : c.toNat ∈ whiteCodes := by
  obtain ⟨⟨low, high⟩, hrange, hc⟩ := List.any_eq_true.1 h
  simp only [Bool.and_eq_true, decide_eq_true_eq] at hc
  exact List.mem_flatMap.2 ⟨(low, high), hrange, List.mem_range'_1.2 (by omega)⟩

/-- No white space is in the set. -/
def CharSet.isVisible (set : CharSet) : Bool :=
  Text.whiteCodes.all fun n => !set.contains (Char.ofNat n)

theorem CharSet.not_isWhite {set : CharSet} (h : set.isVisible) {c : Char} (hc : set.contains c) :
    ¬Text.isWhite c := by
  intro hwhite
  have := List.all_eq_true.1 h _ (Text.mem_whiteCodes hwhite)
  rw [Char.ofNat_toNat, hc] at this
  cases this

namespace Pattern

/-- The sets of characters that a match can begin with; nothing if it need not begin with one. -/
def openings? : Pattern → Option (List CharSet)
  | .one set => some [set]
  | .seq first _ => first.openings?
  | .alt first second => do
    let sets ← first.openings?
    let others ← second.openings?
    return sets ++ others
  | .empty | .many .. | .place _ => none

variable {text : Array Char} {p : Pattern} {i j : Nat}

theorem exists_opening {sets : List CharSet} (h : p.openings? = some sets) (hmatch : p.Matches text i j) :
    ∃ c, text[i]? = some c ∧ ∃ set ∈ sets, set.contains c := by
  induction p generalizing sets j with
  | empty | many | place => cases h
  | one set =>
    cases h
    obtain ⟨c, hc, hset⟩ := (Option.any_eq_true ..).1 hmatch.1
    exact ⟨c, hc, set, List.mem_singleton_self _, hset⟩
  | seq first second ih _ =>
    obtain ⟨k, hfirst, -⟩ := hmatch
    exact ih h hfirst
  | alt first second ihfirst ihsecond =>
    obtain ⟨sets₁, h₁, hmore⟩ := Option.bind_eq_some_iff.1 h
    obtain ⟨sets₂, h₂, heq⟩ := Option.bind_eq_some_iff.1 hmore
    cases heq
    rcases hmatch with hfirst | hsecond
    · obtain ⟨c, hc, set, hset, hin⟩ := ihfirst h₁ hfirst
      exact ⟨c, hc, set, List.mem_append_left _ hset, hin⟩
    · obtain ⟨c, hc, set, hset, hin⟩ := ihsecond h₂ hsecond
      exact ⟨c, hc, set, List.mem_append_right _ hset, hin⟩

/-- Every match begins with a character that is no white space. -/
def opensVisibly (p : Pattern) : Bool :=
  p.openings?.any (·.all CharSet.isVisible)

theorem visible_of_matches (h : p.opensVisibly) (hmatch : p.Matches text i j) :
    ∃ c, text[i]? = some c ∧ ¬Text.isWhite c := by
  obtain ⟨sets, hsets, hall⟩ := (Option.any_eq_true ..).1 h
  obtain ⟨c, hc, set, hset, hin⟩ := exists_opening hsets hmatch
  exact ⟨c, hc, CharSet.not_isWhite (List.all_eq_true.1 hall set hset) hin⟩

end Pattern

end WorkflowAudit
