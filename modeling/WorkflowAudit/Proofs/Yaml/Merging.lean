import WorkflowAudit.Proofs.Yaml.Building

/-!
Merge keys. The entries of a mapping are its explicit pairs, unchanged, and after them what its merge
keys add: each key that only the merged mappings have, once, from the first of them that has it. Main
statements: the values of merge keys have to be mappings or lists, and what comes of the pairs is then
completed from them.
-/

namespace WorkflowAudit.Yaml

/-! ### Looking up -/

namespace Entries

/-- The keys of entries, in order. -/
def keys (entries : Entries) : List String :=
  entries.map (·.1.value)

theorem keys_append (xs ys : Entries) : keys (xs ++ ys) = xs.keys ++ ys.keys :=
  List.map_append

theorem mem_keys_concat {entries : Entries} {entry : Scalar × Node} {key : String} :
    key ∈ keys (entries ++ [entry]) ↔ key ∈ entries.keys ∨ key = entry.1.value := by
  rw [keys_append, List.mem_append]
  exact or_congr_right List.mem_singleton

theorem mem_keys_flatten {sources : List Entries} {key : String} :
    key ∈ keys sources.flatten ↔ ∃ entries ∈ sources, key ∈ entries.keys := by
  simp only [keys, List.map_flatten, List.mem_flatten, List.mem_map, exists_exists_and_eq_and]

theorem get?_append (xs ys : Entries) (key : String) :
    get? (xs ++ ys) key = (xs.get? key).or (ys.get? key) := by
  unfold get?
  rw [List.find?_append, Option.map_or]

theorem get?_flatten (sources : List Entries) (key : String) :
    get? sources.flatten key = sources.findSome? (·.get? key) := by
  induction sources with
  | nil => rfl
  | cons entries sources ih =>
    rw [List.flatten_cons, get?_append, ih, List.findSome?_cons]
    cases entries.get? key <;> rfl

theorem get?_append_flatten (explicit : Entries) (sources : List Entries) (key : String) :
    get? (explicit ++ sources.flatten) key =
      (explicit.get? key).or (sources.findSome? (·.get? key)) := by
  rw [get?_append, get?_flatten]

theorem get?_eq_none_iff {entries : Entries} {key : String} :
    entries.get? key = none ↔ key ∉ entries.keys := by
  simp [get?, keys]

/-- A later entry with a key that is there already is never found. -/
theorem get?_append_of_mem {entries : Entries} {entry : Scalar × Node}
    (h : entry.1.value ∈ entries.keys) (key : String) :
    get? (entries ++ [entry]) key = entries.get? key := by
  rw [get?_append]
  by_cases hkey : key ∈ entries.keys
  · obtain ⟨v, hv⟩ := Option.ne_none_iff_exists'.1 (mt get?_eq_none_iff.1 (not_not.2 hkey))
    rw [hv, Option.some_or]
  · have hother : key ∉ keys [entry] := by
      rintro hmem
      rw [List.mem_singleton.1 hmem] at hkey
      exact hkey h
    rw [get?_eq_none_iff.2 hother, Option.or_none]

/-- The pairs of a mapping that are not merge keys. -/
def explicit (pairs : Entries) : Entries :=
  pairs.filter (!Node.isMergeKey ·.1)

/-- The values of the merge keys of a mapping. -/
def merged (pairs : Entries) : List Node :=
  (pairs.filter (Node.isMergeKey ·.1)).map (·.2)

theorem mem_explicit {pairs : Entries} {e : Scalar × Node} :
    e ∈ pairs.explicit ↔ e ∈ pairs ∧ Node.isMergeKey e.1 = false := by
  simp [explicit]

/-- The entries are the explicit ones, unchanged, and after them each key that only the sources have,
    once; a key is looked up in the explicit entries and then in each source in turn. -/
structure Completes (entries explicit : Entries) (sources : List Entries) : Prop where
  added : ∃ added : Entries, entries = explicit ++ added ∧ added.keys.Nodup ∧
    (∀ key, key ∈ added.keys ↔ key ∉ explicit.keys ∧ ∃ source ∈ sources, key ∈ source.keys) ∧
    ∀ entry ∈ added, ∃ source ∈ sources, entry ∈ source
  lookup : ∀ key, entries.get? key = (explicit.get? key).or (sources.findSome? (·.get? key))

variable {explicit entries : Entries} {sources : List Entries}

/-! ### One entry after the other

The entries that have passed count as a single source here; a merge goes through all entries of all its
sources in one row. -/

theorem addMissing_of_mem {entry : Scalar × Node} (h : entry.1.value ∈ entries.keys) :
    Node.addMissing entries entry = entries := by
  unfold Node.addMissing
  rw [if_pos]
  simpa [keys] using h

theorem addMissing_of_not_mem {entry : Scalar × Node} (h : entry.1.value ∉ entries.keys) :
    Node.addMissing entries entry = entries ++ [entry] := by
  unfold Node.addMissing
  rw [if_neg]
  simpa [keys] using h

theorem Completes.mem_keys (h : entries.Completes explicit sources) {key : String} :
    key ∈ entries.keys ↔ key ∈ explicit.keys ∨ ∃ source ∈ sources, key ∈ source.keys := by
  obtain ⟨⟨added, rfl, -, hkeys, -⟩, -⟩ := h
  rw [keys_append, List.mem_append, hkeys]
  tauto

/-- An entry whose key is there already adds nothing. -/
theorem Completes.pass {passed : Entries} (h : entries.Completes explicit [passed])
    {entry : Scalar × Node} (hmem : entry.1.value ∈ entries.keys) :
    entries.Completes explicit [passed ++ [entry]] := by
  rw [h.mem_keys] at hmem
  obtain ⟨⟨added, rfl, hnodup, hkeys, hdrawn⟩, hlookup⟩ := h
  simp only [List.mem_singleton, exists_eq_left, ← get?_append_flatten,
    List.flatten_singleton] at hmem hkeys hdrawn hlookup
  refine ⟨⟨added, rfl, hnodup, fun key => ?_, fun e he => ?_⟩, fun key => ?_⟩
  · simp only [List.mem_singleton, exists_eq_left, mem_keys_concat, hkeys]
    constructor
    · rintro ⟨hnew, hkey⟩
      exact ⟨hnew, .inl hkey⟩
    · rintro ⟨hnew, hkey | rfl⟩
      · exact ⟨hnew, hkey⟩
      · exact ⟨hnew, hmem.resolve_left hnew⟩
  · exact ⟨_, List.mem_singleton_self _, List.mem_append_left _ (hdrawn e he)⟩
  · have hknown : entry.1.value ∈ keys (explicit ++ passed) := by
      rwa [keys_append, List.mem_append]
    rw [← get?_append_flatten, List.flatten_singleton, ← List.append_assoc,
      get?_append_of_mem hknown, hlookup]

/-- An entry whose key is new is added. -/
theorem Completes.concat {passed : Entries} (h : entries.Completes explicit [passed])
    {entry : Scalar × Node} (hnew : entry.1.value ∉ entries.keys) :
    Completes (entries ++ [entry]) explicit [passed ++ [entry]] := by
  obtain ⟨⟨added, rfl, hnodup, hkeys, hdrawn⟩, hlookup⟩ := h
  simp only [List.mem_singleton, exists_eq_left, ← get?_append_flatten,
    List.flatten_singleton] at hkeys hdrawn hlookup
  rw [keys_append, List.mem_append, not_or] at hnew
  refine ⟨⟨added ++ [entry], List.append_assoc .., ?_, fun key => ?_, fun e he => ?_⟩, fun key => ?_⟩
  · rw [keys_append]
    exact hnodup.append (List.nodup_singleton _) (List.disjoint_singleton.2 hnew.2)
  · simp only [List.mem_singleton, exists_eq_left, mem_keys_concat, hkeys]
    constructor
    · rintro (⟨hkey, hpast⟩ | rfl)
      · exact ⟨hkey, .inl hpast⟩
      · exact ⟨hnew.1, .inr rfl⟩
    · rintro ⟨hkey, hpast | rfl⟩
      · exact .inl ⟨hkey, hpast⟩
      · exact .inr rfl
  · refine ⟨_, List.mem_singleton_self _, ?_⟩
    obtain he | he := List.mem_append.1 he
    · exact List.mem_append_left _ (hdrawn e he)
    · exact List.mem_append_right _ he
  · -- both sides end in the new entry, and before it they agree
    rw [← get?_append_flatten, List.flatten_singleton, ← List.append_assoc,
      get?_append, hlookup, ← get?_append]

theorem Completes.addMissing {passed : Entries} (h : entries.Completes explicit [passed])
    (entry : Scalar × Node) :
    (Node.addMissing entries entry).Completes explicit [passed ++ [entry]] := by
  by_cases hmem : entry.1.value ∈ entries.keys
  · rw [addMissing_of_mem hmem]
    exact h.pass hmem
  · rw [addMissing_of_not_mem hmem]
    exact h.concat hmem

/-! ### All entries of all sources -/

theorem completes_self (explicit : Entries) : explicit.Completes explicit [[]] := by
  refine ⟨⟨[], (List.append_nil _).symm, List.nodup_nil, fun key => ?_, List.forall_mem_nil _⟩,
    fun key => ?_⟩
  · simp [keys]
  · rw [← get?_append_flatten, List.flatten_singleton, List.append_nil]

theorem Completes.foldl {passed : Entries} (h : entries.Completes explicit [passed])
    (rest : Entries) : (rest.foldl Node.addMissing entries).Completes explicit [passed ++ rest] := by
  induction rest generalizing entries passed with
  | nil => rwa [List.append_nil]
  | cons entry rest ih =>
    rw [List.foldl_cons, List.append_cons]
    exact ih (h.addMissing entry)

/-- The sources count one after the other. -/
theorem Completes.of_flatten (h : entries.Completes explicit [sources.flatten]) :
    entries.Completes explicit sources := by
  obtain ⟨⟨added, rfl, hnodup, hkeys, hdrawn⟩, hlookup⟩ := h
  simp only [List.mem_singleton, exists_eq_left, mem_keys_flatten] at hkeys hdrawn
  refine ⟨⟨added, rfl, hnodup, hkeys, fun e he => List.mem_flatten.1 (hdrawn e he)⟩, fun key => ?_⟩
  rw [hlookup, ← get?_append_flatten, ← get?_append_flatten, List.flatten_singleton]

theorem completes_foldl (explicit : Entries) (sources : List Entries) :
    (sources.flatten.foldl Node.addMissing explicit).Completes explicit sources :=
  .of_flatten (explicit.completes_self.foldl sources.flatten)

end Entries

/-! ### Merge keys -/

namespace Node

variable {entries : Entries} {sources : List Entries} {n : Node}

/-- The mappings that a merged value stands for: itself, or the mappings among its items. -/
inductive Spreads : Node → List Entries → Prop
  | mapping (p : Position) (entries : Entries) : Spreads (.mapping p entries) [entries]
  | sequence (p : Position) (items : List Node) :
      Spreads (.sequence p items) (items.filterMap entries?)

theorem mergeSources_eq_ok : mergeSources n = .ok sources ↔ n.Spreads sources := by
  constructor
  · intro h
    cases n with
    | mapping p entries => cases h; exact .mapping p entries
    | sequence p items => cases h; exact .sequence p items
    | _ => cases h
  · rintro (⟨p, entries⟩ | ⟨p, items⟩) <;> rfl

/-- All values of merge keys have to spread; their entries are then added in order. -/
theorem mergeInto_eq_ok {merges : List Node} {result : Entries} :
    mergeInto entries merges = .ok result ↔ ∃ sources, List.Forall₂ Spreads merges sources ∧
      result = sources.flatten.flatten.foldl addMissing entries := by
  induction merges generalizing entries with
  | nil => simp [mergeInto, eq_comm]
  | cons merge rest ih =>
    rw [mergeInto]
    cases hmerge : mergeSources merge with
    | error e =>
      constructor
      · rintro ⟨⟩
      · rintro ⟨_, hspread, -⟩
        cases hspread with
        | cons hfirst _ =>
          rw [mergeSources_eq_ok.2 hfirst] at hmerge
          cases hmerge
    | ok first =>
      dsimp only
      rw [ih]
      constructor
      · rintro ⟨sources, hrest, rfl⟩
        refine ⟨first :: sources, .cons (mergeSources_eq_ok.1 hmerge) hrest, ?_⟩
        rw [List.flatten_cons, List.flatten_append, List.foldl_append]
      · -- a value spreads in one way only, so the sources begin with those of the first merge
        rintro ⟨_, hspread, rfl⟩
        cases hspread with
        | cons hfirst hrest =>
          rw [mergeSources_eq_ok.2 hfirst] at hmerge
          cases hmerge
          refine ⟨_, hrest, ?_⟩
          rw [List.flatten_cons, List.flatten_append, List.foldl_append]

theorem ofPairs_eq_ok {p : Position} {pairs : Entries} :
    ofPairs p pairs = .ok n ↔ ∃ sources, List.Forall₂ Spreads pairs.merged sources ∧
      n = .mapping p (sources.flatten.flatten.foldl addMissing pairs.explicit) := by
  have hpairs : ofPairs p pairs = (mergeInto pairs.explicit pairs.merged).map (.mapping p) := rfl
  rw [hpairs]
  constructor
  · intro h
    cases hmerged : mergeInto pairs.explicit pairs.merged with
    | error e => rw [hmerged] at h; cases h
    | ok entries =>
      rw [hmerged] at h
      cases h
      obtain ⟨sources, hsources, rfl⟩ := mergeInto_eq_ok.1 hmerged
      exact ⟨sources, hsources, rfl⟩
  · rintro ⟨sources, hsources, rfl⟩
    rw [mergeInto_eq_ok.2 ⟨sources, hsources, rfl⟩]
    rfl

/-- A mapping that a value gives when it is merged: the value itself, or one of its items. -/
def Lends (n : Node) (source : Entries) : Prop :=
  n.entries? = some source ∨ ∃ items, n.items? = some items ∧ ∃ m ∈ items, m.entries? = some source

theorem Spreads.lends (h : n.Spreads sources) : ∀ source ∈ sources, n.Lends source := by
  cases h with
  | mapping p entries => exact List.forall_mem_singleton.2 (.inl rfl)
  | sequence p items =>
    intro source hsource
    exact .inr ⟨items, rfl, List.mem_filterMap.1 hsource⟩

theorem lends_of_mem_flatten {merges : List Node} {sources : List (List Entries)}
    (h : List.Forall₂ Spreads merges sources) :
    ∀ source ∈ sources.flatten, ∃ merge ∈ merges, merge.Lends source := by
  induction h with
  | nil => exact List.forall_mem_nil _
  | cons hfirst _ ih =>
    refine List.forall_mem_append.2 ⟨fun source hsource => ?_, fun source hsource => ?_⟩
    · exact ⟨_, List.mem_cons_self .., hfirst.lends source hsource⟩
    · obtain ⟨merge, hmerge, hlends⟩ := ih source hsource
      exact ⟨merge, List.mem_cons_of_mem _ hmerge, hlends⟩

/-- What is merged comes from the value of a pair. -/
theorem exists_lends_of_mem_flatten {pairs : Entries} {sources : List (List Entries)}
    (h : List.Forall₂ Spreads pairs.merged sources) {source : Entries}
    (hsource : source ∈ sources.flatten) : ∃ pair ∈ pairs, pair.2.Lends source := by
  obtain ⟨merge, hmerge, hlends⟩ := lends_of_mem_flatten h source hsource
  obtain ⟨pair, hpair, rfl⟩ := List.mem_map.1 hmerge
  exact ⟨pair, List.mem_of_mem_filter hpair, hlends⟩

/-- The mapping made of pairs has entries of the pairs, and of what their values give. -/
theorem mem_of_ofPairs {p : Position} {pairs : Entries} (h : ofPairs p pairs = .ok n) :
    ∃ entries, n = .mapping p entries ∧ ∀ e ∈ entries,
      e ∈ pairs ∨ ∃ pair ∈ pairs, ∃ source, pair.2.Lends source ∧ e ∈ source := by
  obtain ⟨sources, hsources, rfl⟩ := ofPairs_eq_ok.1 h
  refine ⟨_, rfl, fun e he => ?_⟩
  obtain ⟨added, hentries, -, -, hdrawn⟩ :=
    (Entries.completes_foldl pairs.explicit sources.flatten).added
  rw [hentries] at he
  obtain he | he := List.mem_append.1 he
  · exact .inl (Entries.mem_explicit.1 he).1
  · obtain ⟨source, hsource, he⟩ := hdrawn e he
    obtain ⟨pair, hpair, hlends⟩ := exists_lends_of_mem_flatten hsources hsource
    exact .inr ⟨pair, hpair, source, hlends, he⟩

end Node

end WorkflowAudit.Yaml
