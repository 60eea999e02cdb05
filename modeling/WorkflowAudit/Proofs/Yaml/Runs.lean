import WorkflowAudit.Proofs.Yaml.Cursor
import WorkflowAudit.Proofs.Yaml.Quoted.Positions

/-!
The runs of a value as a short form of the walk over its source. Value and source may have nothing to
do with each other; whatever they are, the runs are in order and lose nothing. Main statement: the runs
begin with the first byte and their offsets increase, looking a character up in them gives the place
that the walk gave it, which is a place of the source, and no character is placed before an earlier one.
-/

namespace WorkflowAudit

namespace Position

theorem le_iff {p q : Position} :
    p.le q ↔ p.line < q.line ∨ p.line = q.line ∧ p.column ≤ q.column := by
  simp [le]

theorem le_refl (p : Position) : p.le p :=
  le_iff.2 (.inr ⟨rfl, Nat.le_refl _⟩)

theorem le_trans {p q r : Position} (hpq : p.le q) (hqr : q.le r) : p.le r := by
  rw [le_iff] at *
  omega

/-- Reading on leads to no earlier position. -/
theorem le_foldl_advance (p : Position) (cs : List Char) : p.le (cs.foldl advance p) := by
  have hlater := foldl_advance_later cs p
  rw [le_iff]
  omega

end Position

namespace Yaml

open Text (byteSize)

/-! ### The walk goes forward -/

theorem SourceText.Within.position_le {body : List Char} {start : Position} {s : SourceText}
    (h : s.Within body start) : start.le s.position := by
  obtain ⟨before, -, hposition⟩ := h
  rw [hposition]
  exact start.le_foldl_advance before

/-- No character of a value is placed before an earlier one, nor before where the walk begins. -/
theorem pairwise_le_placements (style : Style) (value : List Char) (offset : Nat) (s : SourceText) :
    (placements style value offset s).Pairwise (fun a b => a.2.le b.2) ∧
      ∀ place ∈ placements style value offset s, s.position.le place.2 := by
  induction value generalizing offset s with
  | nil => exact ⟨.nil, fun _ h => by cases h⟩
  | cons c value ih =>
    obtain ⟨here, hhere, hplace, hafter⟩ := exists_within_locate style c s
    obtain ⟨hsorted, hlater⟩ := ih (offset + c.utf8Size) (locate style c s).2
    have hnext : ∀ place ∈ placements style value (offset + c.utf8Size) (locate style c s).2,
        here.position.le place.2 := fun place hmem =>
      Position.le_trans hafter.position_le (hlater place hmem)
    rw [placements]
    refine ⟨.cons (fun place hmem => hplace ▸ hnext place hmem) hsorted, fun place hmem => ?_⟩
    rcases List.mem_cons.1 hmem with rfl | hmem
    · exact hplace ▸ hhere.position_le
    · exact Position.le_trans hhere.position_le (hnext place hmem)

theorem length_placements (style : Style) (value : List Char) (offset : Nat) (s : SourceText) :
    (placements style value offset s).length = value.length := by
  induction value generalizing offset s with
  | nil => rfl
  | cons c value ih => exact congrArg (· + 1) (ih _ _)

/-- What the walk notes of a character: its offset, and the place where it is found after the characters
    before it have been read. -/
theorem getElem?_placements (style : Style) (v : List Char) (c : Char) (w : List Char) (s : SourceText) :
    (placements style (v ++ c :: w) 0 s)[v.length]? =
      some (byteSize v, (locate style c (readOn style v s)).1) := by
  rw [placements_append, List.getElem?_append_right (by rw [length_placements]), length_placements,
    Nat.sub_self, Nat.zero_add]
  rfl

/-! ### The table of runs -/

namespace Run

/-- The offsets of the runs increase with those of the places. -/
theorem pairwise_compressFrom {last : Run} {places : List (Nat × Position)}
    (hsorted : (last.offset :: places.map Prod.fst).Pairwise (· < ·)) :
    (last :: compressFrom last places).Pairwise (·.offset < ·.offset) := by
  induction places generalizing last with
  | nil => exact List.pairwise_singleton _ _
  | cons place places ih =>
    obtain ⟨offset, p⟩ := place
    rw [List.map_cons] at hsorted
    obtain ⟨hfirst, hrest⟩ := List.pairwise_cons.1 hsorted
    rw [compressFrom]
    split
    · exact ih (hsorted.sublist ((List.sublist_cons_self ..).cons_cons _))
    · refine List.pairwise_cons.2 ⟨fun r hr => ?_, ih hrest⟩
      rcases List.mem_cons.1 hr with rfl | hmem
      · exact hfirst offset (List.mem_cons_self ..)
      · exact hfirst r.offset (List.mem_cons_of_mem _ (offset_of_mem_compressFrom hmem))

end Run

section Table

variable (style : Style) (value body : List Char) (start : Position)

/-- The first run begins with the first byte. -/
theorem exists_align_eq_cons : ∃ p rest, align style value body start = ⟨0, p⟩ :: rest := by
  cases value with
  | nil => exact ⟨start, [], rfl⟩
  | cons c value => exact ⟨_, _, rfl⟩

theorem pairwise_align : (align style value body start).Pairwise (·.offset < ·.offset) := by
  cases value with
  | nil => exact List.pairwise_singleton _ _
  | cons c value =>
    exact Run.pairwise_compressFrom (pairwise_placements style (c :: value) 0 ⟨body, start⟩).1

/-- No run begins after the last character of a value. -/
theorem offset_le_of_mem_align {v : List Char} {c : Char} {r : Run}
    (h : r ∈ align style (v ++ [c]) body start) : r.offset ≤ byteSize v := by
  have hmem : r.offset ∈ (placements style (v ++ [c]) 0 ⟨body, start⟩).map Prod.fst := by
    rw [align] at h
    cases hplaces : placements style (v ++ [c]) 0 ⟨body, start⟩ with
    | nil => cases v <;> cases hplaces
    | cons first rest =>
      rw [hplaces, Run.compress] at h
      rcases List.mem_cons.1 h with rfl | hmem
      · exact List.mem_cons_self ..
      · exact List.mem_cons_of_mem _ (Run.offset_of_mem_compressFrom hmem)
  have hsorted := (pairwise_placements style (v ++ [c]) 0 ⟨body, start⟩).1
  rw [placements_append, List.map_append, Nat.zero_add] at hmem hsorted
  rcases List.mem_append.1 hmem with hbefore | hlast
  · exact Nat.le_of_lt ((List.pairwise_append.1 hsorted).2.2 _ hbefore _ (List.mem_cons_self ..))
  · exact Nat.le_of_eq (List.mem_singleton.1 hlast)

end Table

/-! ### Looking up -/

namespace Scalar

/-- Once the last run has begun, a later offset leads to no earlier place. -/
theorem positionAt_le_of_last_run {s : Scalar} {m n : Nat} (hmn : m ≤ n)
    (hn : n ≤ s.value.utf8ByteSize) (hruns : ∀ r ∈ s.runs, r.offset ≤ m) :
    (s.positionAt m).le (s.positionAt n) := by
  have hall {k : Nat} (hk : m ≤ k) : s.runs.takeWhile (·.offset ≤ k) = s.runs :=
    List.takeWhile_eq_self_iff.2 fun r hr => by simpa using (hruns r hr).trans hk
  rw [positionAt, positionAt, Nat.min_eq_left hn, Nat.min_eq_left (hmn.trans hn), hall hmn,
    hall (Nat.le_refl m)]
  cases s.runs.getLast? with
  | none => exact s.position.le_refl
  | some r =>
    exact Position.le_iff.2 (.inr ⟨rfl, Nat.add_le_add_left (Nat.sub_le_sub_right hmn _) _⟩)

variable {s : Scalar} {body : List Char} {start : Position}

/-- Looking up a character gives what the walk noted of it. -/
theorem getElem?_placements_eq_positionAt
    (hruns : s.runs = align s.style s.value.toList body start) {v : List Char} {c : Char} {w : List Char}
    (hvalue : s.value.toList = v ++ c :: w) :
    (placements s.style s.value.toList 0 ⟨body, start⟩)[v.length]? =
      some (byteSize v, s.positionAt (byteSize v)) := by
  rw [positionAt_eq_locate hruns hvalue, hvalue]
  exact getElem?_placements s.style v c w ⟨body, start⟩

/-- A character is placed no earlier than the characters before it. -/
theorem positionAt_le_positionAt (hruns : s.runs = align s.style s.value.toList body start)
    {v u : List Char} {d : Char} {w : List Char} (hvalue : s.value.toList = v ++ u ++ d :: w) :
    (s.positionAt (byteSize v)).le (s.positionAt (byteSize (v ++ u))) := by
  cases u with
  | nil => rw [List.append_nil]; exact Position.le_refl _
  | cons c u =>
    have hfirst : s.value.toList = v ++ c :: (u ++ d :: w) := by simpa using hvalue
    obtain ⟨hi, heqv⟩ := List.getElem?_eq_some_iff.1 (getElem?_placements_eq_positionAt hruns hfirst)
    obtain ⟨hj, hequ⟩ := List.getElem?_eq_some_iff.1 (getElem?_placements_eq_positionAt hruns hvalue)
    have hsorted := (pairwise_le_placements s.style s.value.toList 0 ⟨body, start⟩).1
    have hle := List.pairwise_iff_getElem.1 hsorted _ _ hi hj (by simp)
    rwa [heqv, hequ] at hle

/-- The end of a value is placed no earlier than its last character. -/
theorem positionAt_le_end (hruns : s.runs = align s.style s.value.toList body start) {v : List Char}
    {c : Char} (hvalue : s.value.toList = v ++ [c]) :
    (s.positionAt (byteSize v)).le (s.positionAt (byteSize s.value.toList)) := by
  refine positionAt_le_of_last_run ?_ (Nat.le_of_eq (byteSize_toList s.value)) fun r hr => ?_
  · rw [hvalue, Text.byteSize_append]
    exact Nat.le_add_right ..
  · rw [hruns, hvalue] at hr
    exact offset_le_of_mem_align _ _ _ hr

/-- The places of the characters of a value, and of its end, are in the order of the characters. -/
theorem positionAt_mono (hruns : s.runs = align s.style s.value.toList body start) {v w : List Char}
    (hvw : v <+: w) (hw : w <+: s.value.toList) :
    (s.positionAt (byteSize v)).le (s.positionAt (byteSize w)) := by
  obtain ⟨u, rfl⟩ := hvw
  obtain ⟨rest, hvalue⟩ := hw
  cases rest with
  | cons d rest => exact positionAt_le_positionAt hruns hvalue.symm
  | nil =>
    rw [List.append_nil] at hvalue
    rcases List.eq_nil_or_concat u with rfl | ⟨u, d, rfl⟩
    · rw [List.append_nil]
      exact Position.le_refl _
    · rw [List.concat_eq_append, ← List.append_assoc] at hvalue ⊢
      have hend := positionAt_le_end hruns hvalue.symm
      rw [← hvalue] at hend
      exact Position.le_trans (positionAt_le_positionAt hruns hvalue.symm) hend

end Scalar

/-- The runs keep all that the walk over a source found out about a value, in order. `v` is what comes
    before a character of the value, so its size in bytes is the offset of the character. -/
theorem runs_give_back_walk (style : Style) (value : String) (body : List Char)
    (position start : Position) :
    let s : Scalar := ⟨value, position, style, align style value.toList body start⟩
    (∃ first rest, s.runs = first :: rest ∧ first.offset = 0) ∧
    s.runs.Pairwise (·.offset < ·.offset) ∧
    (∀ v c w, value.toList = v ++ c :: w →
      (placements style value.toList 0 ⟨body, start⟩)[v.length]? =
          some (byteSize v, s.positionAt (byteSize v)) ∧
        IsPlaceIn body start (s.positionAt (byteSize v))) ∧
    ∀ v w, v <+: w → w <+: value.toList → (s.positionAt (byteSize v)).le (s.positionAt (byteSize w)) := by
  intro s
  refine ⟨?_, pairwise_align .., fun v c w hvalue => ?_, fun v w => Scalar.positionAt_mono (s := s) rfl⟩
  · obtain ⟨p, rest, hruns⟩ := exists_align_eq_cons style value.toList body start
    exact ⟨⟨0, p⟩, rest, hruns, rfl⟩
  · have hnoted := Scalar.getElem?_placements_eq_positionAt (s := s) rfl hvalue
    have hplace := isPlaceIn_of_mem_placements (SourceText.within_start body start)
      (List.mem_of_getElem? hnoted)
    exact ⟨hnoted, hplace⟩

/-- A value that is not what its source says: an escape, a joint of two lines and another letter. -/
def misread : Scalar :=
  ⟨"é-x", ⟨4, 3⟩, .double, align .double "é-x".toList "\\u00e9 \\\n  - y".toList ⟨4, 4⟩⟩

/-- Every character begins a run of its own, and the last run leads to the end. -/
theorem misread_gives_back_walk :
    misread.runs = [⟨0, ⟨4, 4⟩⟩, ⟨2, ⟨5, 3⟩⟩, ⟨3, ⟨5, 5⟩⟩] ∧
      (placements .double "é-x".toList 0 ⟨"\\u00e9 \\\n  - y".toList, ⟨4, 4⟩⟩)[1]? =
        some (2, misread.positionAt 2) ∧
      IsPlaceIn "\\u00e9 \\\n  - y".toList ⟨4, 4⟩ (misread.positionAt 2) ∧
      misread.positionAt 2 = ⟨5, 3⟩ ∧ misread.positionAt 4 = ⟨5, 6⟩ ∧
      (misread.positionAt 2).le (misread.positionAt 4) := by
  have hruns : misread.runs = [⟨0, ⟨4, 4⟩⟩, ⟨2, ⟨5, 3⟩⟩, ⟨3, ⟨5, 5⟩⟩] := by decide +kernel
  obtain ⟨-, -, hwalk, hmono⟩ :=
    runs_give_back_walk .double "é-x" "\\u00e9 \\\n  - y".toList ⟨4, 3⟩ ⟨4, 4⟩
  obtain ⟨hnoted, hplace⟩ := hwalk ['é'] '-' ['x'] (by decide)
  have hend := hmono ['é'] "é-x".toList (by decide) List.prefix_rfl
  exact ⟨hruns, hnoted, hplace, by decide +kernel, by decide +kernel, hend⟩

end Yaml

end WorkflowAudit
