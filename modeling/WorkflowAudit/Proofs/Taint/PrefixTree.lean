import WorkflowAudit.Proofs.Table.Writing
import WorkflowAudit.Proofs.Taint.ContextPath

/-!
The tree of labels as the prefix tree of the declared paths, whatever they are: repeated, in any order
and in any case, one going on where another ends. The tree of some paths has one child for each first
label, and below it the tree of what is left of the paths that begin with that label. Main statement: a
walk along labels finds a tree if and only if a declared path begins with them, and a leaf if and only if
none goes on after them; the names below are listed as they were first declared.
-/

namespace WorkflowAudit.Trie

/-! ### Trees of labels -/

/-- The tree of some paths that are cut into labels. -/
def build (paths : List (List String)) : Trie :=
  paths.foldl (fun t path => insert path t) empty

theorem ofPaths_eq_build (paths : List String) : ofPaths paths = build (paths.map (Text.split '.')) := by
  rw [ofPaths, build, List.foldl_map]

theorem build_concat (paths : List (List String)) (path : List String) :
    build (paths ++ [path]) = insert path (build paths) := by
  rw [build, List.foldl_append]
  rfl

/-- What is left of a path after the labels of a walk; nothing if it does not begin with them. -/
def rest? (walk path : List String) : Option (List String) :=
  if walk.map Text.lower <+: path.map Text.lower then some (path.drop walk.length) else none

section Rest

variable (k l : String) (ks ls : List String)

@[simp] theorem rest?_nil : rest? [] ls = some ls :=
  rfl

@[simp] theorem rest?_cons_nil : rest? (k :: ks) [] = none := by
  simp [rest?]

@[simp] theorem rest?_cons_cons : rest? (k :: ks) (l :: ls) =
    if Text.lower k = Text.lower l then rest? ks ls else none := by
  simp only [rest?, List.map_cons, List.cons_prefix_cons, List.length_cons, List.drop_succ_cons]
  by_cases h : Text.lower k = Text.lower l <;> simp [h]

/-- A walk takes the labels off a path one by one. -/
theorem rest?_cons : rest? (k :: ks) ls = (rest? [k] ls).bind (rest? ks) := by
  cases ls with
  | nil => simp
  | cons l ls => by_cases h : Text.lower k = Text.lower l <;> simp [h]

theorem rest?_lower : rest? [Text.lower k] ls = rest? [k] ls := by
  simp [rest?]

end Rest

/-- The first labels of some paths, in lower case. -/
def heads (paths : List (List String)) : List String :=
  (paths.filterMap List.head?).map Text.lower

theorem heads_concat (paths : List (List String)) (path : List String) :
    heads (paths ++ [path]) = heads paths ++ (path.head?.map Text.lower).toList := by
  cases path <;> simp [heads]

theorem lower_of_mem_heads {paths : List (List String)} {k : String} (h : k ∈ heads paths) :
    Text.lower k = k := by
  obtain ⟨l, -, rfl⟩ := List.mem_map.1 h
  exact Text.lower_lower l

/-- A label begins a path if something is left of a path after it. -/
theorem lower_mem_heads {paths : List (List String)} {k : String} :
    Text.lower k ∈ heads paths ↔ paths.filterMap (rest? [k]) ≠ [] := by
  rw [Ne, List.filterMap_eq_nil_iff, heads]
  push Not
  constructor
  · intro h
    obtain ⟨l, hl, heq⟩ := List.mem_map.1 h
    obtain ⟨path, hpath, hhead⟩ := List.mem_filterMap.1 hl
    obtain ⟨rest, rfl⟩ := List.head?_eq_some_iff.1 hhead
    exact ⟨_, hpath, by simp [heq]⟩
  · rintro ⟨path, hpath, hrest⟩
    cases path with
    | nil => simp at hrest
    | cons l rest =>
      rw [rest?_cons_cons] at hrest
      split at hrest
      · rename_i heq
        exact List.mem_map.2 ⟨l, List.mem_filterMap.2 ⟨_, hpath, rfl⟩, heq.symm⟩
      · exact absurd rfl hrest

/-- The tree below a label gets what is left of one more path, if that begins with the label. -/
theorem build_rest_concat {k : String} (hk : Text.lower k = k) (l : String) (rest : List String)
    (paths : List (List String)) : build ((paths ++ [l :: rest]).filterMap (rest? [k])) =
      if k = Text.lower l then insert rest (build (paths.filterMap (rest? [k])))
      else build (paths.filterMap (rest? [k])) := by
  rw [List.filterMap_append]
  by_cases h : k = Text.lower l
  · simp [h, build_concat]
  · simp [hk, h]

/-- The children of the tree of some paths: one for each first label, in the order in which the labels
    first come, and below it the tree of what is left of the paths with that label. -/
theorem children_build (paths : List (List String)) :
    (build paths).children =
      (heads paths).eraseDups.map fun k => (k, build (paths.filterMap (rest? [k]))) := by
  induction paths using List.reverseRecOn with
  | nil => rfl
  | append_singleton paths path ih =>
    rw [build_concat, heads_concat]
    cases path with
    | nil => simp [insert, ih]
    | cons l rest =>
      have hany : (build paths).children.any (·.1 = Text.lower l) ↔ Text.lower l ∈ heads paths := by
        simp [ih]
      rw [List.head?_cons, Option.map_some, Option.toList_some, Table.eraseDups_concat]
      by_cases hmem : Text.lower l ∈ heads paths
      · rw [children_insert_of_any (hany.2 hmem), if_pos hmem, ih, List.map_map]
        refine List.map_congr_left fun k hk => ?_
        rw [build_rest_concat (lower_of_mem_heads (List.mem_eraseDups.1 hk))]
        by_cases h : k = Text.lower l <;> simp [h]
      · have hnone : paths.filterMap (rest? [Text.lower l]) = [] := by
          simpa [rest?_lower] using mt lower_mem_heads.2 hmem
        rw [children_insert_of_not_any (mt hany.1 hmem), if_neg hmem, ih, List.map_append,
          List.map_singleton, build_rest_concat (Text.lower_lower l), if_pos rfl, hnone]
        refine congrArg (· ++ _) (List.map_congr_left fun k hk => ?_)
        have hhead := List.mem_eraseDups.1 hk
        have hne : k ≠ Text.lower l := fun h => hmem (h ▸ hhead)
        rw [build_rest_concat (lower_of_mem_heads hhead), if_neg hne]

/-! ### Walks -/

/-- The tree that a walk along labels leads to. -/
def walk? (t : Trie) (labels : List String) : Option Trie :=
  labels.foldlM child? t

/-- A label is found among the first labels of some paths as it stands there, in lower case. -/
theorem find?_heads (paths : List (List String)) (label : String) :
    ((heads paths).eraseDups.find? fun k => Text.sameIgnoringCase k label) =
      if Text.lower label ∈ heads paths then some (Text.lower label) else none := by
  cases hfind : (heads paths).eraseDups.find? fun k => Text.sameIgnoringCase k label with
  | none =>
    rw [if_neg]
    intro hmem
    have hnot := List.find?_eq_none.1 hfind _ (List.mem_eraseDups.2 hmem)
    exact hnot (Text.sameIgnoringCase_iff.2 (Text.lower_lower label))
  | some k =>
    have hmem := List.mem_eraseDups.1 (List.mem_of_find?_eq_some hfind)
    have hk : k = Text.lower label := by
      have hsame := List.find?_some hfind
      rw [← lower_of_mem_heads hmem, ← Text.sameIgnoringCase_iff]
      exact hsame
    rw [if_pos (hk ▸ hmem), hk]

/-- The child under a label is the tree of what is left of the paths that begin with it. -/
theorem child?_build (paths : List (List String)) (label : String) :
    (build paths).child? label =
      if paths.filterMap (rest? [label]) = [] then none
      else some (build (paths.filterMap (rest? [label]))) := by
  have hlower : paths.filterMap (rest? [Text.lower label]) = paths.filterMap (rest? [label]) :=
    congrArg (paths.filterMap ·) (funext (rest?_lower label))
  rw [child?, children_build, List.find?_map]
  simp only [Function.comp_def]
  rw [find?_heads]
  by_cases h : Text.lower label ∈ heads paths
  · rw [if_pos h, if_neg (lower_mem_heads.1 h), ← hlower]
    rfl
  · rw [if_neg h, if_pos (by simpa using mt lower_mem_heads.2 h)]
    rfl

/-- A walk leads to the tree of what is left of the paths that begin with its labels. -/
theorem walk?_build (paths : List (List String)) (k : String) (ks : List String) :
    (build paths).walk? (k :: ks) =
      if paths.filterMap (rest? (k :: ks)) = [] then none
      else some (build (paths.filterMap (rest? (k :: ks)))) := by
  induction ks generalizing paths k with
  | nil =>
    rw [walk?, List.foldlM_cons, ← child?_build]
    cases (build paths).child? k <;> rfl
  | cons k' ks ih =>
    have hleft : paths.filterMap (rest? (k :: k' :: ks)) =
        (paths.filterMap (rest? [k])).filterMap (rest? (k' :: ks)) := by
      rw [List.filterMap_filterMap]
      exact congrArg (paths.filterMap ·) (funext fun path => rest?_cons k (k' :: ks) path)
    rw [walk?, List.foldlM_cons, child?_build, hleft]
    by_cases hnone : paths.filterMap (rest? [k]) = []
    · rw [if_pos hnone, hnone]
      rfl
    · rw [if_neg hnone]
      exact ih (paths.filterMap (rest? [k])) k'

theorem eq_build_of_walk? {paths : List (List String)} {ks : List String} {t : Trie}
    (h : (build paths).walk? ks = some t) : t = build (paths.filterMap (rest? ks)) := by
  cases ks with
  | nil =>
    have hid : paths.filterMap (rest? []) = paths := List.filterMap_some ..
    rw [hid]
    exact (Option.some.inj h).symm
  | cons k ks =>
    rw [walk?_build] at h
    split at h
    · cases h
    · exact (Option.some.inj h).symm

/-! ### What the trees show -/

theorem labels_build (paths : List (List String)) :
    (build paths).children.map (·.1) = (heads paths).eraseDups := by
  rw [children_build, List.map_map]
  exact List.map_id _

/-- The tree of some paths is a leaf if nothing is left of any of them. -/
theorem isLeaf_build (paths : List (List String)) : (build paths).isLeaf ↔ heads paths = [] := by
  rw [isLeaf, List.isEmpty_iff, children_build, List.map_eq_nil_iff]
  cases heads paths with
  | nil => simp
  | cons k ks => simp [List.eraseDups_cons]

/-- The names among the labels of a tree. -/
theorem named_labels (t : Trie) :
    t.named.map (·.1) = (t.children.map (·.1)).filter fun label => !isWildcard label := by
  rw [named, List.filter_map]
  refine congrArg (List.map _) (List.filter_congr fun c _ => ?_)
  simp [isWildcard]

/-- The label that a path has after the labels of a walk; nothing if it ends with them or does not begin
    with them. -/
def next? (walk : List String) (path : String) : Option String :=
  if walk.map Text.lower <+: labels path then (labels path)[walk.length]? else none

/-- The first labels of what is left of some paths are the labels that follow in the paths. -/
theorem heads_rest (paths walk : List String) :
    heads ((paths.map (Text.split '.')).filterMap (rest? walk)) = paths.filterMap (next? walk) := by
  rw [heads, List.filterMap_filterMap, List.filterMap_map, List.map_filterMap]
  refine congrArg (paths.filterMap ·) (funext fun path => ?_)
  rw [next?, labels, Function.comp, rest?]
  split <;> simp

/-- A path has a label after those of a walk if it begins with them and goes on. -/
theorem next?_eq_some_iff {walk : List String} {path k : String} :
    next? walk path = some k ↔ walk.map Text.lower ++ [k] <+: labels path := by
  rw [next?]
  constructor
  · intro h
    split at h
    · rename_i hprefixed
      obtain ⟨rest, hrest⟩ := hprefixed
      rw [← hrest, List.getElem?_append_right (by simp)] at h
      obtain ⟨more, rfl⟩ : ∃ more, rest = k :: more := by
        cases rest <;> simp_all
      exact ⟨more, by simpa using hrest⟩
    · cases h
  · rintro ⟨rest, hrest⟩
    rw [List.append_assoc] at hrest
    rw [if_pos ⟨_, hrest⟩, ← hrest, List.getElem?_append_right (by simp)]
    simp

/-- A property of every node of a tree. -/
inductive Every (p : Trie → Prop) : Trie → Prop
  | node {cs : List (String × Trie)} : p (.node cs) → (∀ c ∈ cs, Every p c.2) → Every p (.node cs)

/-- No two children of a node have labels that are the same but for case. -/
def HasDistinctLabels (t : Trie) : Prop :=
  t.children.Pairwise fun c d => ¬Text.sameIgnoringCase c.1 d.1

theorem Tidy.every_hasDistinctLabels {t : Trie} (h : t.Tidy) : t.Every HasDistinctLabels := by
  induction h with
  | @node cs hnodup hlower _ ih =>
    refine .node ?_ ih
    refine (List.pairwise_map.1 hnodup).imp_of_mem fun {c d} hc hd hne hsame => hne ?_
    rw [← hlower c hc, ← hlower d hd]
    exact Text.sameIgnoringCase_iff.1 hsame

/-! ### The prefix tree -/

section Declared

variable {paths : List String}

/-- A walk finds a tree if a declared path begins with its labels. -/
theorem isSome_walk?_ofPaths (l : String) (ls : List String) :
    ((ofPaths paths).walk? (l :: ls)).isSome ↔
      ∃ p ∈ paths, (l :: ls).map Text.lower <+: labels p := by
  have hleft : (paths.map (Text.split '.')).filterMap (rest? (l :: ls)) ≠ [] ↔
      ∃ p ∈ paths, (l :: ls).map Text.lower <+: labels p := by
    rw [Ne, List.filterMap_eq_nil_iff, List.forall_mem_map]
    push Not
    refine exists_congr fun p => and_congr_right fun _ => ?_
    rw [rest?, labels]
    split <;> simp_all
  rw [ofPaths_eq_build, walk?_build, ← hleft]
  split <;> simp_all

/-- A walk finds a leaf if no declared path goes on after its labels. -/
theorem isLeaf_of_walk? {ls : List String} {t : Trie} (h : (ofPaths paths).walk? ls = some t) :
    t.isLeaf ↔ ¬∃ p ∈ paths, ∃ k, ls.map Text.lower ++ [k] <+: labels p := by
  rw [ofPaths_eq_build] at h
  rw [eq_build_of_walk? h, isLeaf_build, heads_rest, List.filterMap_eq_nil_iff]
  push Not
  refine forall₂_congr fun p _ => ?_
  rw [Option.eq_none_iff_forall_ne_some]
  exact forall_congr' fun k => not_congr next?_eq_some_iff

/-- The names below a walk are the labels that follow it in declared paths, as they first come. -/
theorem named_of_walk? {ls : List String} {t : Trie} (h : (ofPaths paths).walk? ls = some t) :
    t.named.map (·.1) =
      (paths.filterMap (next? ls)).eraseDups.filter fun label => !isWildcard label := by
  rw [ofPaths_eq_build] at h
  rw [named_labels, eq_build_of_walk? h, labels_build, heads_rest]

/-- What a walk finds, and whether that is a leaf, depends on which paths are declared and on no more. -/
theorem walk?_ofPaths_congr {paths' : List String} (h : ∀ p, p ∈ paths' ↔ p ∈ paths)
    (ls : List String) :
    ((ofPaths paths').walk? ls).map isLeaf = ((ofPaths paths).walk? ls).map isLeaf := by
  have hfound : ((ofPaths paths').walk? ls).isSome ↔ ((ofPaths paths).walk? ls).isSome := by
    cases ls with
    | nil => exact Iff.rfl
    | cons l ls => simp only [isSome_walk?_ofPaths, h]
  cases hleft : (ofPaths paths').walk? ls with
  | none =>
    rw [hleft] at hfound
    rw [Option.not_isSome_iff_eq_none.1 (mt hfound.2 (by simp))]
  | some t' =>
    obtain ⟨t, hright⟩ := Option.isSome_iff_exists.1 (hfound.1 (hleft ▸ rfl))
    have hleaf : t'.isLeaf ↔ t.isLeaf := by
      rw [isLeaf_of_walk? hleft, isLeaf_of_walk? hright]
      simp only [h]
    rw [hright, Option.map_some, Option.map_some, Bool.eq_iff_iff.2 hleaf]

end Declared

/-- The tree of some paths is their prefix tree: a walk finds a node if and only if its labels are, in any
    case, the first labels of a declared path, and the node is a leaf if and only if no declared path goes
    on; no node has a label twice; the order of the paths, and their repetition, shows in nothing but the
    order of the names, which is that of their first declaration. -/
theorem ofPaths_is_prefix_tree (paths : List String) :
    (∀ l ls, ((ofPaths paths).walk? (l :: ls)).isSome ↔
      ∃ p ∈ paths, (l :: ls).map Text.lower <+: labels p) ∧
    (∀ ls t, (ofPaths paths).walk? ls = some t →
      (t.isLeaf ↔ ¬∃ p ∈ paths, ∃ k, ls.map Text.lower ++ [k] <+: labels p) ∧
      t.named.map (·.1) =
        (paths.filterMap (next? ls)).eraseDups.filter fun label => !isWildcard label) ∧
    (ofPaths paths).Every HasDistinctLabels ∧
    ∀ paths' : List String, (∀ p, p ∈ paths' ↔ p ∈ paths) → ∀ ls,
      ((ofPaths paths').walk? ls).map isLeaf = ((ofPaths paths).walk? ls).map isLeaf :=
  ⟨isSome_walk?_ofPaths, fun _ _ h => ⟨isLeaf_of_walk? h, named_of_walk? h⟩,
    (tidy_ofPaths paths).every_hasDistinctLabels, fun _ h => walk?_ofPaths_congr h⟩

/-- Paths with a label in two cases, a wildcard, and two paths that go on where another ends. -/
def mixedPaths : List String :=
  ["A.b.c", "a.*", "a.Z", "A.B", "a.z.q"]

/-- `A.B` is declared and yet no leaf, and the other way round only the names change places. -/
theorem mixedPaths_prefix_tree :
    (∃ t, (ofPaths mixedPaths).walk? ["a"] = some t ∧ t.named.map (·.1) = ["b", "z"]) ∧
      (∃ t, (ofPaths mixedPaths).walk? ["a", "B"] = some t ∧ ¬t.isLeaf) ∧
      ((ofPaths mixedPaths.reverse).walk? ["a", "B"]).map isLeaf =
        ((ofPaths mixedPaths).walk? ["a", "B"]).map isLeaf ∧
      ∃ t, (ofPaths mixedPaths.reverse).walk? ["a"] = some t ∧ t.named.map (·.1) = ["z", "b"] := by
  obtain ⟨hfound, hnode, -, hcongr⟩ := ofPaths_is_prefix_tree mixedPaths
  obtain ⟨hfoundBack, hnodeBack, -, -⟩ := ofPaths_is_prefix_tree mixedPaths.reverse
  refine ⟨?_, ?_, hcongr _ (fun p => List.mem_reverse) _, ?_⟩
  · obtain ⟨t, ht⟩ := Option.isSome_iff_exists.1 ((hfound "a" []).2 ⟨"a.*", by decide +kernel⟩)
    exact ⟨t, ht, (hnode _ t ht).2.trans (by decide +kernel)⟩
  · obtain ⟨t, ht⟩ := Option.isSome_iff_exists.1 ((hfound "a" ["B"]).2 ⟨"A.B", by decide +kernel⟩)
    refine ⟨t, ht, fun hleaf => (hnode _ t ht).1.1 hleaf ⟨"A.b.c", ?_⟩⟩
    exact ⟨by decide, "c", by decide +kernel⟩
  · obtain ⟨t, ht⟩ := Option.isSome_iff_exists.1 ((hfoundBack "a" []).2 ⟨"a.*", by decide +kernel⟩)
    exact ⟨t, ht, (hnodeBack _ t ht).2.trans (by decide +kernel)⟩

end WorkflowAudit.Trie
