import Mathlib
import WorkflowAudit.Table

/-!
What a table holds after writing. A write keeps the places of all keys and changes no other value. Main
statements: the keys of a table are those that were written, each where it was first written, and a key
has the value that was written last.
-/

namespace WorkflowAudit.Table

/-! ### Keys without repetitions -/

theorem eraseDups_concat (keys : List String) (key : String) :
    (keys ++ [key]).eraseDups =
      if key ∈ keys then keys.eraseDups else keys.eraseDups ++ [key] := by
  rw [List.eraseDups_append, List.removeAll]
  by_cases h : key ∈ keys
  · simp [h]
  · simp [h, List.eraseDups_cons]

theorem nodup_eraseDups (keys : List String) : keys.eraseDups.Nodup := by
  induction keys using List.reverseRecOn with
  | nil => exact List.nodup_nil
  | append_singleton keys key ih =>
    rw [eraseDups_concat]
    split
    · exact ih
    · rename_i hmem
      rw [← List.concat_eq_append]
      exact ih.concat (mt List.mem_eraseDups.1 hmem)

/-- An entry whose key is its own is found under it. -/
theorem lookup_of_mem {κ α : Type} [BEq κ] [LawfulBEq κ] {entries : List (κ × α)}
    (hnodup : (entries.map (·.1)).Nodup) {e : κ × α} (h : e ∈ entries) :
    entries.lookup e.1 = some e.2 := by
  obtain ⟨before, after, rfl⟩ := List.append_of_mem h
  rw [List.map_append, List.map_cons, List.nodup_append] at hnodup
  refine List.lookup_eq_some_iff.2 ⟨before, after, rfl, fun p hp => ?_⟩
  rw [bne_iff_ne]
  intro heq
  exact hnodup.2.2 p.1 (List.mem_map_of_mem hp) e.1 (List.mem_cons_self ..) heq.symm

/-! ### Tables that are given by a function on keys -/

section

variable {α : Type} {keys : List String} {value : String → α} {key : String} {new : α}

theorem lookup_map : List.lookup key (keys.map fun k => (k, value k)) =
    if key ∈ keys then some (value key) else none := by
  induction keys with
  | nil => rfl
  | cons k keys ih =>
    rw [List.map_cons, List.lookup_cons]
    by_cases h : key = k
    · simp [h]
    · rw [beq_false_of_ne h, ih]
      simp [h]

theorem insert_map_of_mem (hmem : key ∈ keys) (hnodup : keys.Nodup) :
    Table.insert (keys.map fun k => (k, value k)) key new =
      keys.map fun k => (k, if k = key then new else value k) := by
  induction keys with
  | nil => cases hmem
  | cons k keys ih =>
    rw [List.map_cons, Table.insert, List.map_cons]
    obtain ⟨hk, hnodup⟩ := List.nodup_cons.1 hnodup
    split
    · rename_i heq
      subst heq
      congr 1
      refine List.map_congr_left fun x hx => ?_
      rw [if_neg (fun heq : x = k => hk (heq ▸ hx))]
    · rename_i hne
      rw [ih ((List.mem_cons.1 hmem).resolve_left (Ne.symm hne)) hnodup]

theorem insert_map_of_not_mem (hmem : key ∉ keys) :
    Table.insert (keys.map fun k => (k, value k)) key new =
      keys.map (fun k => (k, value k)) ++ [(key, new)] := by
  induction keys with
  | nil => rfl
  | cons k keys ih =>
    rw [List.mem_cons, not_or] at hmem
    rw [List.map_cons, Table.insert, if_neg (Ne.symm hmem.1), ih hmem.2, List.cons_append]

end

/-! ### One write -/

variable {α : Type} {table : Table α} {key : String} {value : α} {e : String × α}

theorem mem_of_mem_insert (h : e ∈ table.insert key value) : e ∈ table ∨ e = (key, value) := by
  induction table with
  | nil => exact .inr (List.mem_singleton.1 h)
  | cons first rest ih =>
    obtain ⟨k, v⟩ := first
    rw [Table.insert] at h
    split at h
    · rename_i hk
      rcases List.mem_cons.1 h with rfl | hmem
      · exact .inr (by rw [hk])
      · exact .inl (List.mem_cons_of_mem _ hmem)
    · rcases List.mem_cons.1 h with rfl | hmem
      · exact .inl (List.mem_cons_self ..)
      · exact (ih hmem).imp_left (List.mem_cons_of_mem _)

theorem lookup_insert (table : Table α) (key k : String) (value : α) :
    (table.insert key value).lookup k = if k = key then some value else table.lookup k := by
  induction table with
  | nil =>
    rw [Table.insert, List.lookup_cons]
    by_cases h : k = key
    · simp [h]
    · rw [beq_false_of_ne h, if_neg h]
  | cons first rest ih =>
    obtain ⟨k', v⟩ := first
    rw [Table.insert, List.lookup_cons]
    by_cases hk' : k' = key
    · rw [if_pos hk', List.lookup_cons, hk']
      by_cases h : k = key
      · simp [h]
      · rw [beq_false_of_ne h, if_neg h]
    · rw [if_neg hk', List.lookup_cons, ih]
      by_cases h : k = k'
      · simp [h, hk']
      · rw [beq_false_of_ne h]

theorem keys_insert (table : Table α) (key : String) (value : α) :
    (table.insert key value).map Prod.fst =
      if key ∈ table.map Prod.fst then table.map Prod.fst else table.map Prod.fst ++ [key] := by
  induction table with
  | nil => rfl
  | cons first rest ih =>
    obtain ⟨k, v⟩ := first
    rw [Table.insert]
    by_cases hk : k = key
    · simp [hk]
    · rw [if_neg hk, List.map_cons, ih]
      by_cases hmem : key ∈ rest.map Prod.fst
      · simp [hmem]
      · simp [hmem, Ne.symm hk]

/-- What is not what was written last has another key. -/
theorem ne_key_of_mem_insert (hnodup : (table.map Prod.fst).Nodup)
    (h : e ∈ table.insert key value) (hne : e ≠ (key, value)) : e.1 ≠ key := by
  induction table with
  | nil => exact absurd (List.mem_singleton.1 h) hne
  | cons first rest ih =>
    obtain ⟨k, v⟩ := first
    obtain ⟨hk, hnodup⟩ := List.nodup_cons.1 hnodup
    rw [Table.insert] at h
    split at h
    · rename_i heq
      subst heq
      rcases List.mem_cons.1 h with rfl | hmem
      · exact absurd rfl hne
      · exact fun heq => hk (List.mem_map.2 ⟨e, hmem, heq⟩)
    · rename_i hother
      rcases List.mem_cons.1 h with rfl | hmem
      · exact hother
      · exact ih hnodup hmem

/-! ### Many writes -/

theorem ofList_concat (pairs : List (String × α)) (pair : String × α) :
    ofList (pairs ++ [pair]) = (ofList pairs).insert pair.1 pair.2 := by
  rw [ofList, List.foldl_append]
  rfl

/-- The keys of a table are those that were written, each where it was first written. -/
theorem keys_ofList (pairs : List (String × α)) :
    (ofList pairs).map Prod.fst = (pairs.map Prod.fst).eraseDups := by
  induction pairs using List.reverseRecOn with
  | nil => rfl
  | append_singleton pairs pair ih =>
    rw [ofList_concat, keys_insert, ih, List.map_append, List.map_singleton, eraseDups_concat]
    simp only [List.mem_eraseDups]

/-- A key has the value that was written last. -/
theorem lookup_reverse_of_mem_ofList {pairs : List (String × α)} (h : e ∈ ofList pairs) :
    pairs.reverse.lookup e.1 = some e.2 := by
  induction pairs using List.reverseRecOn with
  | nil => cases h
  | append_singleton pairs pair ih =>
    rw [ofList_concat] at h
    rw [List.reverse_concat, List.lookup_cons]
    by_cases hlast : e = pair
    · rw [hlast, beq_self_eq_true]
    · have hne : e.1 ≠ pair.1 := by
        refine ne_key_of_mem_insert ?_ h hlast
        rw [keys_ofList]
        exact nodup_eraseDups _
      rw [beq_false_of_ne hne]
      exact ih ((mem_of_mem_insert h).resolve_right hlast)

theorem mem_of_mem_ofList {pairs : List (String × α)} (h : e ∈ ofList pairs) : e ∈ pairs := by
  obtain ⟨before, after, hpairs, -⟩ := List.lookup_eq_some_iff.1 (lookup_reverse_of_mem_ofList h)
  rw [← List.mem_reverse, hpairs]
  exact List.mem_append_right _ (List.mem_cons_self ..)

end WorkflowAudit.Table
