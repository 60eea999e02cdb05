import WorkflowAudit.Proofs.Path.Levels

/-!
Joined paths, and paths that are the same but for idle parts. Main statements: a name that is joined to a
directory has that directory for its parent, the names that lead down from a directory are found again,
and what is done to two paths that are the same gives paths that are the same.
-/

namespace WorkflowAudit.Path

/-! ### Joining -/

theorem lead_join {a b : String} (ha : a ≠ "") (hb : isAbsolute b = false) :
    (split (join a b)).1 = (split a).1 := by
  obtain ⟨front, hfront, hjoin, hparts⟩ := parts_join ha hb
  obtain ⟨first, rest, rfl⟩ := List.exists_cons_of_ne_nil hfront
  have hhead : (parts a).head? = some first := by
    rcases hparts with h | h <;> simp [h]
  rw [lead_eq, lead_eq, hjoin, isAbsolute_join hb, hhead]
  rfl

theorem join_ne_empty {a b : String} (ha : a ≠ "") : join a b ≠ "" := by
  rw [join]
  split
  · rintro rfl
    exact absurd ‹_› (by decide)
  · split <;> simp [ha]

theorem body_eq (path : String) :
    (split path).2 = if (split path).1 = "" then parts path else (parts path).tail := by
  rcases lead_cases path with ⟨h, -, hparts⟩ | ⟨h, -, hparts⟩ | ⟨h, -, hparts⟩ <;> simp [h, hparts]

section IsName

variable {name : String} (h : IsName name)

include h

theorem IsName.isAbsolute_eq_false : isAbsolute name = false := by
  rw [isAbsolute, decide_eq_false_iff_not]
  exact fun hhead => h.2.2 (List.mem_of_head? hhead)

theorem IsName.parts_eq : parts name = [name] := by
  have hparts := parts_intercalate (List.cons_ne_nil name []) (by simpa using h.2.2)
  simpa using hparts

/-- A joined name stands after the parts of the directory, idle ones at their end aside. -/
theorem split_join_name (dir : String) :
    ∃ front, (split (join dir name)).1 = (split dir).1 ∧ (split (join dir name)).2 = front ++ [name] ∧
      trimEnd front = trimEnd (split dir).2 := by
  rcases eq_or_ne dir "" with rfl | hdir
  · have hne : name ≠ "." := by
      rintro rfl
      exact absurd h.1 (by decide)
    have hsplit : split name = ("", [name]) := by
      rw [split, h.parts_eq]
      simp [h.isAbsolute_eq_false]
    have hjoin : join "" name = name := by simp [join, h.isAbsolute_eq_false]
    have hlead : (split "").1 = "" := by decide
    refine ⟨[], ?_⟩
    rw [hjoin, hsplit, hlead]
    exact ⟨rfl, rfl, by decide⟩
  · obtain ⟨front, hfront, hjoin, hparts⟩ := parts_join hdir h.isAbsolute_eq_false
    have hlead := lead_join hdir h.isAbsolute_eq_false
    rw [h.parts_eq] at hjoin
    refine ⟨if (split dir).1 = "" then front else front.tail, hlead, ?_, ?_⟩
    · rw [body_eq, hlead, hjoin]
      split
      · rfl
      · exact List.tail_append_of_ne_nil hfront
    · have hidle : isIdle "" = true := by decide
      rw [body_eq dir]
      split
      · rcases hparts with hparts | hparts <;> simp [hparts, trimEnd_concat_idle hidle]
      · rcases hparts with hparts | hparts
        · rw [hparts]
        · rw [hparts, List.tail_append_of_ne_nil hfront, trimEnd_concat_idle hidle]

/-- The parent of a joined name is the directory, without what is idle at its end. -/
theorem parent?_join_name (dir : String) : parent? (join dir name) = some (cut dir (depth dir)) := by
  obtain ⟨front, hlead, hbody, htrim⟩ := split_join_name h dir
  simp only [parent?, hlead, hbody, trimEnd_concat_name h.1]
  rw [cut_depth]
  simp [htrim]

theorem fileName?_join_name (dir : String) : fileName? (join dir name) = some name := by
  obtain ⟨front, -, hbody, -⟩ := split_join_name h dir
  simp [fileName?, hbody, trimEnd_concat_name h.1, h.2.1]

theorem named_parts_join_name (dir : String) :
    named (parts (join dir name)) = named (parts dir) ++ [name] := by
  rw [named_parts_join h.isAbsolute_eq_false, h.parts_eq, named_cons_name h.1]
  rfl

end IsName

/-! ### Going down and back -/

theorem descend_concat (dir : String) (names : List String) (name : String) :
    descend dir (names ++ [name]) = join (descend dir names) name := by
  simp [descend]

theorem split_descend {names : List String} (h : ∀ name ∈ names, IsName name) (dir : String) :
    (split (descend dir names)).1 = (split dir).1 ∧
      named (parts (descend dir names)) = named (parts dir) ++ names := by
  induction names using List.reverseRecOn with
  | nil => simp [descend]
  | append_singleton names name ih =>
    obtain ⟨hnames, hname⟩ := List.forall_mem_append.1 h
    rw [List.forall_mem_singleton] at hname
    obtain ⟨hlead, hnamed⟩ := ih hnames
    obtain ⟨-, hlead', -, -⟩ := split_join_name hname (descend dir names)
    rw [descend_concat, hlead', hlead, named_parts_join_name hname, hnamed, List.append_assoc]
    exact ⟨rfl, rfl⟩

theorem namesFrom?_eq_some {dir path : String} {names : List String}
    (hlead : (split path).1 = (split dir).1) (h : named (parts path) = named (parts dir) ++ names) :
    namesFrom? dir path = some names := by
  simp [namesFrom?, named_split, hlead, h]

/-- The names that lead down to the parent of a file are found again. -/
theorem parent?_descend {names : List String} {name : String} (hnames : ∀ name ∈ names, IsName name)
    (hname : IsName name) (dir : String) :
    (parent? (descend dir (names ++ [name]))).bind (namesFrom? dir) = some names := by
  obtain ⟨hlead, hnamed⟩ := split_descend hnames dir
  rw [descend_concat, parent?_join_name hname, Option.bind_some]
  refine namesFrom?_eq_some ?_ ?_
  · rw [(split_cut le_rfl).1, hlead]
  · rw [named_parts_cut le_rfl, depth, List.take_length, hnamed]

/-! ### Paths that are the same -/

theorem same_self (path : String) : same path path = true := by
  simp [same]

theorem same_iff {a b : String} :
    same a b = true ↔ (split a).1 = (split b).1 ∧ named (parts a) = named (parts b) := by
  rw [same, Bool.and_eq_true, decide_eq_true_eq, decide_eq_true_eq, named_split, named_split]

section Same

variable {a b : String} (h : same a b = true)

include h

theorem depth_eq_of_same : depth a = depth b := by
  rw [depth, depth, named_eq_of_same h]

theorem same_join (ha : a ≠ "") (hb : b ≠ "") (c : String) : same (join a c) (join b c) = true := by
  cases hc : isAbsolute c with
  | true => simp [join, hc, same_self]
  | false =>
    rw [same_iff] at h
    rw [same_iff, lead_join ha hc, lead_join hb hc, named_parts_join hc, named_parts_join hc, h.1, h.2]
    exact ⟨rfl, rfl⟩

theorem same_descend (ha : a ≠ "") (hb : b ≠ "") (names : List String) :
    same (descend a names) (descend b names) = true := by
  induction names generalizing a b with
  | nil => exact h
  | cons name names ih => exact ih (same_join h ha hb name) (join_ne_empty ha) (join_ne_empty hb)

theorem same_cut {n : Nat} (hn : n ≤ depth a) : same (cut a n) (cut b n) = true := by
  have hn' : n ≤ depth b := depth_eq_of_same h ▸ hn
  rw [same_iff] at h
  rw [same_iff, (split_cut hn).1, (split_cut hn').1, named_parts_cut hn, named_parts_cut hn', h.1, h.2]
  exact ⟨rfl, rfl⟩

theorem same_parent? : parent? a = none ∧ parent? b = none ∨
    ∃ p q, parent? a = some p ∧ parent? b = some q ∧ same p q = true := by
  have hsame := same_iff.1 h
  rcases eq_or_ne (named (parts a)) [] with hnil | hne
  · rw [parent?_eq_of_no_names hnil, parent?_eq_of_no_names (hsame.2 ▸ hnil), hsame.1]
    split
    · exact .inr ⟨"", "", rfl, rfl, same_self _⟩
    · exact .inl ⟨rfl, rfl⟩
  · rw [parent?_eq_of_names hne, parent?_eq_of_names (hsame.2 ▸ hne), depth_eq_of_same h]
    refine .inr ⟨_, _, rfl, rfl, same_cut h ?_⟩
    rw [depth_eq_of_same h]
    exact Nat.sub_le _ _

theorem namesFrom?_eq_of_same {p q : String} (hpath : same p q = true) :
    namesFrom? a p = namesFrom? b q := by
  rw [same_iff] at h hpath
  simp [namesFrom?, named_split, h.1, h.2, hpath.1, hpath.2]

end Same

end WorkflowAudit.Path
