import WorkflowAudit.IgnoreRules
import WorkflowAudit.Proofs.Path.Places

/-!
What a walk over a tree of files comes to. Main statement: if the entries of every directory have names, and
no two of them the same, then a walk comes to no file twice, whatever it passes over.
-/

namespace WorkflowAudit.FileTree

mutual

/-- In every directory the entries have names, each one a name of its own. -/
def wellNamed : FileTree → Bool
  | file _ => true
  | dir entries => decide (entries.map (·.1)).Nodup && allWellNamed entries

/-- The entries of a directory have names, and those below as well. -/
def allWellNamed : List (String × FileTree) → Bool
  | [] => true
  | (name, t) :: rest => decide (Path.IsName name) && t.wellNamed && allWellNamed rest

end

theorem allWellNamed_iff (entries : List (String × FileTree)) :
    allWellNamed entries = true ↔ ∀ e ∈ entries, Path.IsName e.1 ∧ e.2.wellNamed = true := by
  induction entries with
  | nil => simp [allWellNamed]
  | cons e entries ih =>
    rw [allWellNamed, Bool.and_eq_true, Bool.and_eq_true, decide_eq_true_eq, ih, List.forall_mem_cons]

theorem wellNamed_dir_iff (entries : List (String × FileTree)) :
    (dir entries).wellNamed = true ↔
      (entries.map (·.1)).Nodup ∧ ∀ e ∈ entries, Path.IsName e.1 ∧ e.2.wellNamed = true := by
  rw [wellNamed, Bool.and_eq_true, decide_eq_true_eq, allWellNamed_iff]

theorem sortedEntries_eq (entries : List (String × FileTree)) :
    sortedEntries entries = entries.map fun e => (e.1, e.2.sorted) := by
  induction entries with
  | nil => rfl
  | cons e entries ih => rw [sortedEntries, ih, List.map_cons]

mutual

theorem wellNamed_sorted : ∀ t : FileTree, t.wellNamed = true → t.sorted.wellNamed = true
  | file _, _ => rfl
  | dir entries, h => by
    rw [wellNamed_dir_iff] at h
    have hperm := List.mergeSort_perm (sortedEntries entries) fun a b => decide (a.1 ≤ b.1)
    have hnames : (sortedEntries entries).map (·.1) = entries.map (·.1) := by
      rw [sortedEntries_eq, List.map_map]
      rfl
    rw [sorted, wellNamed_dir_iff]
    refine ⟨(hperm.map _).nodup_iff.2 (hnames ▸ h.1), fun e he => ?_⟩
    exact wellNamed_sortedEntries entries h.2 e (hperm.mem_iff.1 he)

theorem wellNamed_sortedEntries : ∀ entries : List (String × FileTree),
    (∀ e ∈ entries, Path.IsName e.1 ∧ e.2.wellNamed = true) →
      ∀ e ∈ sortedEntries entries, Path.IsName e.1 ∧ e.2.wellNamed = true
  | [], _ => fun e he => by cases he
  | (name, t) :: rest, h => by
    rw [List.forall_mem_cons] at h
    rw [sortedEntries, List.forall_mem_cons]
    exact ⟨⟨h.1.1, wellNamed_sorted t h.1.2⟩, wellNamed_sortedEntries rest h.2⟩

end

/-- Files that a walk comes to, each once and below one of the entries with these names. -/
structure IsWalk (heads : List String) (files : List (List String × ByteArray)) : Prop where
  heads : ∀ file ∈ files, ∃ head ∈ heads, ∃ rest, file.1 = head :: rest
  named : ∀ file ∈ files, ∀ name ∈ file.1, Path.IsName name
  distinct : (files.map (·.1)).Nodup

section IsWalk

variable {heads : List String} {files more : List (List String × ByteArray)} {name : String}

theorem IsWalk.nil : IsWalk heads [] :=
  ⟨by simp, by simp, List.nodup_nil⟩

theorem IsWalk.append (h : IsWalk [name] files) (hmore : IsWalk heads more) (hname : name ∉ heads) :
    IsWalk (name :: heads) (files ++ more) where
  heads := by
    refine List.forall_mem_append.2 ⟨fun file hfile => ?_, fun file hfile => ?_⟩
    · obtain ⟨head, hhead, rest, hrest⟩ := h.heads file hfile
      exact ⟨head, List.mem_cons.2 (.inl (List.mem_singleton.1 hhead)), rest, hrest⟩
    · obtain ⟨head, hhead, rest, hrest⟩ := hmore.heads file hfile
      exact ⟨head, List.mem_cons_of_mem _ hhead, rest, hrest⟩
  named := List.forall_mem_append.2 ⟨h.named, hmore.named⟩
  distinct := by
    rw [List.map_append, List.nodup_append]
    refine ⟨h.distinct, hmore.distinct, fun a ha b hb heq => ?_⟩
    obtain ⟨file, hfile, rfl⟩ := List.mem_map.1 ha
    obtain ⟨other, hother, rfl⟩ := List.mem_map.1 hb
    obtain ⟨head, hhead, rest, hrest⟩ := h.heads file hfile
    obtain ⟨head', hhead', rest', hrest'⟩ := hmore.heads other hother
    rw [hrest, hrest', List.mem_singleton.1 hhead] at heq
    exact hname ((List.cons.inj heq).1 ▸ hhead')

theorem IsWalk.below (h : IsWalk heads files) (hname : Path.IsName name) :
    IsWalk [name] (files.map fun file => (name :: file.1, file.2)) where
  heads file hfile := by
    obtain ⟨inner, -, rfl⟩ := List.mem_map.1 hfile
    exact ⟨name, List.mem_singleton_self _, inner.1, rfl⟩
  named file hfile := by
    obtain ⟨inner, hinner, rfl⟩ := List.mem_map.1 hfile
    exact List.forall_mem_cons.2 ⟨hname, h.named inner hinner⟩
  distinct := by
    have hmap : (files.map fun file => (name :: file.1, file.2)).map (·.1) =
        (files.map (·.1)).map (name :: ·) := by
      rw [List.map_map, List.map_map]
      rfl
    rw [hmap]
    exact h.distinct.map (List.cons_injective)

end IsWalk

mutual

theorem isWalk_walkEntries (levels : List IgnoreLevel) : ∀ entries : List (String × FileTree),
    (entries.map (·.1)).Nodup → (∀ e ∈ entries, Path.IsName e.1 ∧ e.2.wellNamed = true) →
      IsWalk (entries.map (·.1)) (walkEntries levels entries)
  | [], _, _ => .nil
  | (name, t) :: rest, hnodup, h => by
    rw [List.map_cons, List.nodup_cons] at hnodup
    rw [List.forall_mem_cons] at h
    have hrest := isWalk_walkEntries levels rest hnodup.2 h.2
    rw [walkEntries]
    split
    · exact .append .nil hrest hnodup.1
    · exact .append (isWalk_walkFrom levels name h.1.1 t h.1.2) hrest hnodup.1

theorem isWalk_walkFrom (levels : List IgnoreLevel) (name : String) (hname : Path.IsName name) :
    ∀ t : FileTree, t.wellNamed = true → IsWalk [name] (t.walkFrom levels name)
  | file content, _ => by
    refine ⟨fun f hf => ?_, fun f hf => ?_, by simp [walkFrom]⟩
    · rw [walkFrom, List.mem_singleton] at hf
      exact ⟨name, List.mem_singleton_self _, [], by rw [hf]⟩
    · rw [walkFrom, List.mem_singleton] at hf
      rw [hf]
      exact List.forall_mem_singleton.2 hname
  | dir entries, h => by
    rw [wellNamed_dir_iff] at h
    exact (isWalk_walkEntries _ entries h.1 h.2).below hname

end

theorem isWalk_walk {t : FileTree} (h : t.wellNamed = true) : ∃ heads, IsWalk heads t.walk := by
  have hsorted := wellNamed_sorted t h
  rw [walk]
  cases hs : t.sorted with
  | file content => exact ⟨[], .nil⟩
  | dir entries =>
    rw [hs, wellNamed_dir_iff] at hsorted
    exact ⟨_, isWalk_walkEntries _ entries hsorted.1 hsorted.2⟩

end WorkflowAudit.FileTree
