import Mathlib
import WorkflowAudit.Untrusted

/-!
The tree of labels as the set of paths that were declared. The walks through the tree are the prefixes
of the declared paths. Main statement: if no declared path is a proper prefix of another, the paths to
the leaves are the declared ones, each once.
-/

namespace WorkflowAudit

namespace Trie

/-- The labels of a dotted path, in lower case. -/
def labels (path : String) : List String :=
  (Text.split '.' path).map Text.lower

/-! ### Walks -/

/-- There is a walk down the tree along the labels. -/
def Walks : Trie → List String → Prop
  | _, [] => True
  | t, k :: ks => ∃ c ∈ t.children, c.1 = k ∧ Walks c.2 ks

theorem walks_empty {ks : List String} : empty.Walks ks ↔ ks = [] := by
  cases ks with
  | nil => exact ⟨fun _ => rfl, fun _ => trivial⟩
  | cons k ks => simp [Walks, empty, children]

theorem children_insert_of_any {t : Trie} {key : String} (h : t.children.any (·.1 = Text.lower key))
    (rest : List String) : (insert (key :: rest) t).children =
      t.children.map fun c => if c.1 = Text.lower key then (c.1, insert rest c.2) else c := by
  rw [insert, if_pos h]
  rfl

theorem children_insert_of_not_any {t : Trie} {key : String}
    (h : ¬t.children.any (·.1 = Text.lower key)) (rest : List String) :
    (insert (key :: rest) t).children = t.children ++ [(Text.lower key, insert rest empty)] := by
  rw [insert, if_neg h]
  rfl

/-- Inserting a path adds the walks along its prefixes, and no others. -/
theorem walks_insert {ls ks : List String} {t : Trie} :
    (insert ls t).Walks ks ↔ t.Walks ks ∨ ks <+: ls.map Text.lower := by
  induction ls generalizing t ks with
  | nil =>
    rw [insert, List.map_nil, List.prefix_nil]
    exact ⟨Or.inl, fun h => h.elim id fun hks => hks ▸ trivial⟩
  | cons key ls ih =>
    cases ks with
    | nil => exact ⟨fun _ => Or.inl trivial, fun _ => trivial⟩
    | cons k ks =>
      rw [List.map_cons, List.cons_prefix_cons]
      by_cases h : t.children.any (·.1 = Text.lower key)
      · obtain ⟨c₀, hc₀, hkey⟩ := List.any_eq_true.1 h
        simp only [Walks, children_insert_of_any h, List.mem_map]
        constructor
        · rintro ⟨_, ⟨c, hc, rfl⟩, hk, hw⟩
          split at hk <;> rename_i hck
          · rw [if_pos hck] at hw
            rcases ih.1 hw with hw | hp
            · exact Or.inl ⟨c, hc, hk, hw⟩
            · exact Or.inr ⟨hk.symm.trans hck, hp⟩
          · rw [if_neg hck] at hw
            exact Or.inl ⟨c, hc, hk, hw⟩
        · rintro (⟨c, hc, hk, hw⟩ | ⟨rfl, hp⟩)
          · refine ⟨_, ⟨c, hc, rfl⟩, ?_, ?_⟩
            · split <;> exact hk
            · split
              · exact ih.2 (Or.inl hw)
              · exact hw
          · refine ⟨_, ⟨c₀, hc₀, rfl⟩, ?_, ?_⟩
            · rw [if_pos (by simpa using hkey)]
              simpa using hkey
            · rw [if_pos (by simpa using hkey)]
              exact ih.2 (Or.inr hp)
      · simp only [Walks, children_insert_of_not_any h, List.mem_append, List.mem_singleton]
        constructor
        · rintro ⟨c, hc | rfl, hk, hw⟩
          · exact Or.inl ⟨c, hc, hk, hw⟩
          · refine Or.inr ⟨hk.symm, ?_⟩
            rcases ih.1 hw with hw | hp
            · exact walks_empty.1 hw ▸ List.nil_prefix
            · exact hp
        · rintro (⟨c, hc, hk, hw⟩ | ⟨rfl, hp⟩)
          · exact ⟨c, Or.inl hc, hk, hw⟩
          · exact ⟨_, Or.inr rfl, rfl, ih.2 (Or.inr hp)⟩

/-- The walks through the tree of some paths are the prefixes of the paths. -/
theorem walks_ofPaths {paths ks : List String} (hks : ks ≠ []) :
    (ofPaths paths).Walks ks ↔ ∃ p ∈ paths, ks <+: labels p := by
  have hfold : ∀ t : Trie, (paths.foldl (fun t path => insert (Text.split '.' path) t) t).Walks ks
      ↔ t.Walks ks ∨ ∃ p ∈ paths, ks <+: labels p := by
    induction paths with
    | nil => simp
    | cons p paths ih =>
      intro t
      rw [List.foldl_cons, ih, walks_insert, List.exists_mem_cons_iff, or_assoc, labels]
  rw [ofPaths, hfold, walks_empty]
  exact ⟨fun h => h.resolve_left hks, Or.inr⟩

/-! ### Tidy trees -/

/-- The labels of a node are in lower case and differ. -/
inductive Tidy : Trie → Prop
  | node {cs : List (String × Trie)} : (cs.map (·.1)).Nodup → (∀ c ∈ cs, Text.lower c.1 = c.1) →
      (∀ c ∈ cs, Tidy c.2) → Tidy (.node cs)

theorem tidy_empty : empty.Tidy :=
  .node List.nodup_nil (by simp) (by simp)

theorem tidy_insert {ls : List String} {t : Trie} (h : t.Tidy) : (insert ls t).Tidy := by
  induction ls generalizing t with
  | nil =>
    rw [insert]
    exact h
  | cons key ls ih =>
    obtain ⟨hnodup, hlower, htidy⟩ := h
    rename_i cs
    by_cases hany : cs.any (·.1 = Text.lower key)
    · rw [insert, children, if_pos hany]
      refine .node ?_ ?_ ?_
      · rw [List.map_map]
        refine (congrArg List.Nodup (List.map_congr_left fun c _ => ?_)).mp hnodup
        simp only [Function.comp]
        split <;> rfl
      · intro d hd
        obtain ⟨c, hc, rfl⟩ := List.mem_map.1 hd
        split <;> exact hlower c hc
      · intro d hd
        obtain ⟨c, hc, rfl⟩ := List.mem_map.1 hd
        split
        · exact ih (htidy c hc)
        · exact htidy c hc
    · rw [insert, children, if_neg hany]
      refine .node ?_ ?_ ?_
      · rw [List.map_append, List.map_singleton, List.nodup_append_comm, List.singleton_append,
          List.nodup_cons]
        refine ⟨fun hmem => hany ?_, hnodup⟩
        obtain ⟨c, hc, hkey⟩ := List.mem_map.1 hmem
        exact List.any_eq_true.2 ⟨c, hc, by simpa using hkey⟩
      · intro c hc
        rcases List.mem_append.1 hc with hc | hc
        · exact hlower c hc
        · rw [List.mem_singleton.1 hc]
          exact Text.lower_lower key
      · intro c hc
        rcases List.mem_append.1 hc with hc | hc
        · exact htidy c hc
        · rw [List.mem_singleton.1 hc]
          exact ih tidy_empty

theorem tidy_ofPaths (paths : List String) : (ofPaths paths).Tidy :=
  List.foldlRecOn paths _ tidy_empty fun _ h _ _ => tidy_insert h

/-! ### Paths to the leaves -/

/-- The labels on the way to each leaf, from left to right. -/
def ends : Trie → List (List String)
  | .node cs => if cs.isEmpty then [[]] else cs.flatMap fun c => (ends c.2).map (c.1 :: ·)
termination_by t => sizeOf t
decreasing_by
  rename_i hc
  have := List.sizeOf_lt_of_mem hc
  have : sizeOf c = 1 + sizeOf c.1 + sizeOf c.2 := by cases c; rfl
  simp only [node.sizeOf_spec]
  omega

theorem ends_nil : ends (.node []) = [[]] := by
  rw [ends]
  rfl

theorem ends_cons (c : String × Trie) (cs : List (String × Trie)) : ends (.node (c :: cs)) =
    (c :: cs).flatMap fun d => (ends d.2).map (d.1 :: ·) := by
  rw [ends]
  rfl

theorem nil_mem_ends {cs : List (String × Trie)} : [] ∈ ends (.node cs) ↔ cs = [] := by
  cases cs with
  | nil => simp [ends_nil]
  | cons c cs => simp [ends_cons]

theorem cons_mem_ends {cs : List (String × Trie)} {k : String} {ks : List String} :
    k :: ks ∈ ends (.node cs) ↔ ∃ c ∈ cs, c.1 = k ∧ ks ∈ ends c.2 := by
  cases cs with
  | nil => simp [ends_nil]
  | cons c cs =>
    simp only [ends_cons, List.mem_flatMap, List.mem_map, List.cons.injEq]
    exact exists_congr fun d => and_congr_right fun _ =>
      ⟨fun ⟨_, hks, hk, he⟩ => ⟨hk, he ▸ hks⟩, fun ⟨hk, hks⟩ => ⟨ks, hks, hk, rfl⟩⟩

/-- Each leaf has a path of its own. -/
theorem nodup_ends {t : Trie} (h : t.Tidy) : t.ends.Nodup := by
  induction h with
  | @node cs hnodup _ _ ih =>
    cases cs with
    | nil => simp [ends_nil]
    | cons c cs =>
      rw [ends_cons, List.nodup_flatMap]
      refine ⟨fun d hd => (ih d hd).map fun _ _ he => (List.cons.inj he).2, ?_⟩
      refine (List.pairwise_map.1 hnodup).imp fun hne ks hks hks' => ?_
      obtain ⟨_, -, rfl⟩ := List.mem_map.1 hks
      obtain ⟨_, -, he⟩ := List.mem_map.1 hks'
      exact hne (List.cons.inj he).1.symm

theorem Tidy.children_inj {cs : List (String × Trie)} (h : (Trie.node cs).Tidy) {c d : String × Trie}
    (hc : c ∈ cs) (hd : d ∈ cs) (he : c.1 = d.1) : c = d := by
  obtain ⟨hnodup, -, -⟩ := h
  exact List.inj_on_of_nodup_map hnodup hc hd he

/-- The paths to the leaves are the walks that lead no further. -/
theorem mem_ends_iff {t : Trie} (h : t.Tidy) {ks : List String} :
    ks ∈ t.ends ↔ t.Walks ks ∧ ∀ k, ¬t.Walks (ks ++ [k]) := by
  induction ks generalizing t with
  | nil =>
    obtain ⟨cs⟩ := t
    rw [nil_mem_ends]
    constructor
    · rintro rfl
      exact ⟨trivial, fun k ⟨c, hc, _⟩ => absurd hc (List.not_mem_nil)⟩
    · rintro ⟨-, hstop⟩
      refine List.eq_nil_iff_forall_not_mem.2 fun c hc => hstop c.1 ⟨c, hc, rfl, trivial⟩
  | cons k ks ih =>
    obtain ⟨cs⟩ := t
    rw [cons_mem_ends]
    constructor
    · rintro ⟨c, hc, rfl, hends⟩
      obtain ⟨-, -, htidy⟩ := id h
      obtain ⟨hwalk, hstop⟩ := (ih (htidy c hc)).1 hends
      refine ⟨⟨c, hc, rfl, hwalk⟩, fun x ⟨d, hd, he, hw⟩ => ?_⟩
      rw [h.children_inj hd hc he] at hw
      exact hstop x hw
    · rintro ⟨⟨c, hc, rfl, hwalk⟩, hstop⟩
      obtain ⟨-, -, htidy⟩ := h
      exact ⟨c, hc, rfl, (ih (htidy c hc)).2 ⟨hwalk, fun x hw => hstop x ⟨c, hc, rfl, hw⟩⟩⟩

/-! ### Declared paths -/

/-- No declared path is a proper prefix of another. -/
def PrefixFree (paths : List String) : Prop :=
  ∀ p ∈ paths, ∀ q ∈ paths, labels p <+: labels q → labels p = labels q

/-- The paths to the leaves are the declared paths. -/
theorem mem_ends_ofPaths {paths ks : List String} (h : PrefixFree paths) (hks : ks ≠ []) :
    ks ∈ (ofPaths paths).ends ↔ ks ∈ paths.map labels := by
  have hnext : ∀ k, ks ++ [k] ≠ [] := by simp
  rw [mem_ends_iff (tidy_ofPaths paths), walks_ofPaths hks, List.mem_map]
  constructor
  · rintro ⟨⟨p, hp, rest, hrest⟩, hstop⟩
    refine ⟨p, hp, ?_⟩
    cases rest with
    | nil => rw [← hrest, List.append_nil]
    | cons k rest =>
      refine absurd ((walks_ofPaths (hnext k)).2 ⟨p, hp, rest, ?_⟩) (hstop k)
      rw [← hrest, List.append_assoc, List.singleton_append]
  · rintro ⟨p, hp, rfl⟩
    refine ⟨⟨p, hp, List.prefix_rfl⟩, fun k hw => ?_⟩
    obtain ⟨q, hq, hpre⟩ := (walks_ofPaths (hnext k)).1 hw
    have heq := h p hp q hq ((List.prefix_append _ _).trans hpre)
    have hlen := hpre.length_le
    rw [heq, List.length_append, List.length_singleton] at hlen
    omega

/-! ### Wildcards -/

theorem anyElement_ne_anyProperty : anyElement ≠ anyProperty := by decide

theorem lower_anyElement : Text.lower anyElement = anyElement := by decide

theorem lower_anyProperty : Text.lower anyProperty = anyProperty := by decide

/-- The label is `*` or `**`. -/
def isWildcard (label : String) : Bool :=
  label = anyElement || label = anyProperty

/-- A wildcard has no label beside it, at any node. -/
inductive LoneWildcards : Trie → Prop
  | node {cs : List (String × Trie)} : (∀ c ∈ cs, isWildcard c.1 → cs = [c]) →
      (∀ c ∈ cs, LoneWildcards c.2) → LoneWildcards (.node cs)

theorem LoneWildcards.alone_or_none {cs : List (String × Trie)}
    (h : (Trie.node cs).LoneWildcards) :
    (∃ t, cs = [(anyElement, t)]) ∨ (∃ t, cs = [(anyProperty, t)]) ∨
      ∀ c ∈ cs, isWildcard c.1 = false := by
  obtain ⟨halone, -⟩ := h
  by_cases hany : ∃ c ∈ cs, isWildcard c.1
  · obtain ⟨⟨k, t⟩, hc, hk⟩ := hany
    have hcs := halone _ hc hk
    simp only [isWildcard, Bool.or_eq_true, decide_eq_true_eq] at hk
    rcases hk with rfl | rfl
    · exact Or.inl ⟨t, hcs⟩
    · exact Or.inr (Or.inl ⟨t, hcs⟩)
  · exact Or.inr (Or.inr fun c hc => Bool.eq_false_iff.2 fun hk => hany ⟨c, hc, hk⟩)

/-- Wildcards stand alone if no walk has another label in the place of a wildcard. -/
theorem loneWildcards_of_walks {t : Trie} (htidy : t.Tidy)
    (h : ∀ ks k k', t.Walks (ks ++ [k]) → isWildcard k → t.Walks (ks ++ [k']) → k' = k) :
    t.LoneWildcards := by
  induction htidy with
  | @node cs hnodup hlower htidy ih =>
    refine .node (fun c hc hwild => ?_) fun c hc => ih c hc fun ks k k' hk hwild hk' => ?_
    · have honly : ∀ d ∈ cs, d = c := fun d hd =>
        (Tidy.node hnodup hlower htidy).children_inj hd hc
          (h [] c.1 d.1 ⟨c, hc, rfl, trivial⟩ hwild ⟨d, hd, rfl, trivial⟩)
      have hcs := List.eq_replicate_of_mem honly
      have hlen : cs.length = 1 := by
        have hpos := List.length_pos_of_mem hc
        rw [hcs, List.map_replicate, List.nodup_replicate] at hnodup
        omega
      rw [hcs, hlen]
      rfl
    · exact h (c.1 :: ks) k k' ⟨c, hc, rfl, hk⟩ hwild ⟨c, hc, rfl, hk'⟩

/-- Declared paths that can be told apart: none is a proper prefix of another, and a wildcard stands
    alone wherever it stands. -/
structure Separable (paths : List String) : Prop where
  prefixFree : PrefixFree paths
  loneWildcards : (ofPaths paths).LoneWildcards

/-- The labels are the same, or they part at two names. -/
def apart : List String → List String → Bool
  | [], [] => true
  | [], _ :: _ | _ :: _, [] => false
  | k :: ks, l :: ls => if k = l then apart ks ls else !isWildcard k && !isWildcard l

theorem eq_of_apart {ks ls : List String} (h : apart ks ls) (hp : ks <+: ls) : ks = ls := by
  fun_induction apart ks ls with
  | case1 => rfl
  | case2 => cases h
  | case3 => cases h
  | case4 k ks ls ih => rw [ih h (List.cons_prefix_cons.1 hp).2]
  | case5 k ks l ls hne => exact absurd (List.cons_prefix_cons.1 hp).1 hne

theorem eq_of_apart_wildcard {ks ls as : List String} {k l : String} (h : apart as ls)
    (hk : ks ++ [k] <+: as) (hwild : isWildcard k) (hl : ks ++ [l] <+: ls) : l = k := by
  fun_induction apart as ls generalizing ks with
  | case1 => simp at hk
  | case2 => cases h
  | case3 => cases h
  | case4 a as ls ih =>
    cases ks with
    | nil =>
      rw [List.nil_append, List.cons_prefix_cons] at hk hl
      rw [hl.1, hk.1]
    | cons x ks =>
      rw [List.cons_append, List.cons_prefix_cons] at hk hl
      exact ih h hk.2 hl.2
  | case5 a as b ls hne =>
    simp only [Bool.and_eq_true, Bool.not_eq_true'] at h
    cases ks with
    | nil =>
      rw [List.nil_append, List.cons_prefix_cons] at hk
      rw [hk.1, h.1] at hwild
      cases hwild
    | cons x ks =>
      rw [List.cons_append, List.cons_prefix_cons] at hk hl
      exact absurd (hk.1.symm.trans hl.1) hne

/-- Paths that part at names only can be told apart. -/
theorem separable_of_apart {paths : List String}
    (h : (paths.map labels).all fun ks => (paths.map labels).all fun ls => apart ks ls) :
    Separable paths := by
  have hapart : ∀ p ∈ paths, ∀ q ∈ paths, apart (labels p) (labels q) := by
    simpa only [List.all_eq_true, List.forall_mem_map] using h
  refine ⟨fun p hp q hq => eq_of_apart (hapart p hp q hq), ?_⟩
  refine loneWildcards_of_walks (tidy_ofPaths paths) fun ks k k' hk hwild hk' => ?_
  obtain ⟨p, hp, hk⟩ := (walks_ofPaths (by simp)).1 hk
  obtain ⟨q, hq, hk'⟩ := (walks_ofPaths (by simp)).1 hk'
  exact eq_of_apart_wildcard (hapart p hp q hq) hk hwild hk'

/-- The paths known to be under an attacker's control can be told apart. -/
theorem separable_untrustedPaths : Separable untrustedPaths :=
  separable_of_apart (by cbv)

end Trie

end WorkflowAudit
