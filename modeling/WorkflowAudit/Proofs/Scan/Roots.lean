import WorkflowAudit.Batch
import WorkflowAudit.Proofs.Path.Joins

/-!
Project roots that differ in idle parts only. A batch looks at a project once for all the roots that are
the same path, whichever way the first of them is written. That is sound because every root stops at its
last name: a path `a/` must lead to a directory where `a` need not, but no root ends like that. So the
cache of a batch has, for each of its roots, the actions that a look at that very root would give.
-/

namespace WorkflowAudit

/-! ### What a path leads to -/

namespace Disk

open WorkflowAudit.Path

/-- An idle part needs a directory to stand in, and so does the part after it. -/
theorem follow_cons_idle {part : String} (h : isIdle part = true) {rest : List String}
    (hrest : rest ≠ []) (root : FileTree) (place : List String) :
    follow root place (part :: rest) = follow root place rest := by
  obtain ⟨next, rest, rfl⟩ := List.exists_cons_of_ne_nil hrest
  rw [follow]
  split
  · rw [follow, ‹root.find? _ = _›]
  · rw [follow, ‹root.find? _ = _›]
  · rw [if_pos h]

theorem follow_eq_follow_named {name : String} (hname : isIdle name = false) (root : FileTree)
    {body : List String} (hlast : body.getLast? = some name) (place : List String) :
    follow root place body = follow root place (named body) := by
  induction body generalizing place with
  | nil => cases hlast
  | cons part rest ih =>
    rcases eq_or_ne rest [] with rfl | hrest
    · rw [List.getLast?_singleton, Option.some.injEq] at hlast
      rw [named_cons_name (hlast ▸ hname)]
      rfl
    · have hlast : rest.getLast? = some name := by
        rwa [List.getLast?_cons_of_ne_nil hrest] at hlast
      cases hpart : isIdle part with
      | true => rw [follow_cons_idle hpart hrest, named_cons_idle hpart, ih hlast]
      | false =>
        rw [named_cons_name hpart, follow, follow]
        simp only [ih hlast]

theorem follow_of_all_idle (root : FileTree) (place : List String) {body : List String}
    (hne : body ≠ []) (hidle : ∀ part ∈ body, isIdle part = true) :
    follow root place body = follow root place [""] := by
  induction body with
  | nil => exact absurd rfl hne
  | cons part rest ih =>
    have hpart := hidle part (List.mem_cons_self ..)
    rcases eq_or_ne rest [] with rfl | hrest
    · have hnone : isIdle "" = true := by decide
      simp only [follow, hpart, hnone, if_true]
    · rw [follow_cons_idle hpart hrest]
      exact ih hrest fun p hp => hidle p (List.mem_cons_of_mem _ hp)

theorem follow_eq_of_named_eq (root : FileTree) (place : List String) {a b : String}
    (ha : Settled a) (hb : Settled b) (h : named (parts a) = named (parts b)) :
    follow root place (parts a) = follow root place (parts b) := by
  have hname {c name : String} (hlast : (parts c).getLast? = some name) (hn : isIdle name = false)
      (hnil : named (parts c) = []) : False := by
    have hidle := named_eq_nil.1 hnil name (List.mem_of_getLast? hlast)
    rw [hn] at hidle
    cases hidle
  rcases ha.2 with ha | ⟨x, hx, hx'⟩ <;> rcases hb.2 with hb | ⟨y, hy, hy'⟩
  · have hne (c : String) : parts c ≠ [] := Text.split_ne_nil _ c
    rw [follow_of_all_idle root place (hne a) ha, follow_of_all_idle root place (hne b) hb]
  · exact (hname hy hy' (h ▸ named_eq_nil.2 ha)).elim
  · exact (hname hx hx' (h ▸ named_eq_nil.2 hb)).elim
  · rw [follow_eq_follow_named hx' root hx, follow_eq_follow_named hy' root hy, h]

/-- Settled paths that differ in idle parts only lead to the same place. -/
theorem lookup_eq_of_same (d : Disk) {a b : String} (ha : Settled a) (hb : Settled b)
    (h : same a b = true) : d.lookup a = d.lookup b := by
  have hresolve : d.resolve a = d.resolve b := by
    rw [resolve, if_neg ha.1, resolve, if_neg hb.1, isAbsolute_eq_of_same h,
      follow_eq_of_named_eq d.root _ ha hb (named_eq_of_same h)]
  rw [lookup, lookup, hresolve]

theorem settled_parent?_getD {dir : String} (hdir : Settled dir) (path : String) :
    Settled (((parent? path).map orHere).getD dir) := by
  cases h : parent? path with
  | none => exact hdir
  | some above => exact settled_of_parent? h

theorem settled_projectRoot (d : Disk) (file : String) : Settled (d.projectRoot file) := by
  have hdir : Settled (orHere ((parent? file).getD ".")) := by
    cases h : parent? file with
    | none => exact settled_here.orHere
    | some dir => exact settled_of_parent? h
  unfold projectRoot
  generalize orHere ((parent? file).getD ".") = dir at hdir ⊢
  simp only
  split
  next repository h =>
    obtain ⟨a, ha, rfl⟩ := List.mem_map.1 (List.mem_of_find?_eq_some h)
    exact settled_of_mem_ancestors hdir ha
  next =>
    split
    next settings _ => exact settled_parent?_getD hdir settings
    next => exact hdir

end Disk

/-- A file adds the same whichever way the root and the path of the file are written. -/
theorem ActionIndex.add_eq_of_same {a b p q : String} (hroot : Path.same a b = true)
    (hpath : Path.same p q = true) (index : ActionIndex) (content : ByteArray) :
    add a index (p, content) = add b index (q, content) := by
  have hdirectory : directoryOf a p = directoryOf b q := by
    rw [directoryOf, directoryOf]
    rcases Path.same_parent? hpath with ⟨hp, hq⟩ | ⟨p', q', hp, hq, hsame⟩
    · rw [hp, hq]
      rfl
    · rw [hp, hq, Option.bind_some, Option.bind_some, Path.namesFrom?_eq_of_same hroot hsame]
  simp only [add, definitionIn?, Path.fileName?_eq_of_same hpath, hdirectory]

/-- A look at a project sees the same actions whichever way its root is written. -/
theorem ActionIndex.ofProject_eq_of_same (d : Disk) {a b : String} (ha : Path.Settled a)
    (hb : Path.Settled b) (h : Path.same a b = true) : ofProject d a = ofProject d b := by
  have hfiles (files : List (List String × ByteArray)) :
      ofFiles a (files.map fun file => (Path.descend a file.1, file.2)) =
        ofFiles b (files.map fun file => (Path.descend b file.1, file.2)) := by
    rw [ofFiles, ofFiles, List.foldl_map, List.foldl_map]
    refine List.foldl_ext _ _ _ fun index file _ => ?_
    exact add_eq_of_same h (Path.same_descend h ha.1 hb.1 file.1) index file.2
  rw [ofProject, ofProject, d.lookup_eq_of_same ha hb h]
  split
  · exact add_eq_of_same h h {} _
  · exact hfiles _
  · rfl

/-! ### The cache of a batch -/

namespace ProjectCache

open WorkflowAudit.Path

/-- Every entry has the actions of the project with its root. -/
def Sound (d : Disk) (cache : ProjectCache) : Prop :=
  ∀ p ∈ cache, Settled p.1 ∧ p.2 = .ofProject d p.1

theorem Sound.get? {d : Disk} {cache : ProjectCache} (h : cache.Sound d) {root : String}
    (hroot : Settled root) {actions : ActionIndex} (hget : cache.get? root = some actions) :
    actions = .ofProject d root := by
  rw [ProjectCache.get?, Option.map_eq_some_iff] at hget
  obtain ⟨p, hp, rfl⟩ := hget
  obtain ⟨hp₁, hp₂⟩ := h p (List.mem_of_find?_eq_some hp)
  rw [hp₂]
  exact ActionIndex.ofProject_eq_of_same d hp₁ hroot (by simpa using List.find?_some hp)

theorem isSome_get?_append {cache : ProjectCache} {root : String} (h : (cache.get? root).isSome)
    (more : ProjectCache) : (ProjectCache.get? (cache ++ more) root).isSome := by
  rw [ProjectCache.get?, Option.isSome_map, List.find?_isSome] at h ⊢
  obtain ⟨p, hp, hsame⟩ := h
  exact ⟨p, List.mem_append_left _ hp, hsame⟩

theorem sound_add {d : Disk} {cache : ProjectCache} (h : cache.Sound d) {root : String}
    (hroot : Settled root) : (cache.add d root).Sound d := by
  rw [add]
  split
  · exact h
  · intro p hp
    rcases List.mem_append.1 hp with hp | hp
    · exact h p hp
    · rw [List.mem_singleton] at hp
      exact hp ▸ ⟨hroot, rfl⟩

theorem isSome_get?_add (d : Disk) (cache : ProjectCache) {root : String} (added : String)
    (h : root = added ∨ (cache.get? root).isSome) : ((cache.add d added).get? root).isSome := by
  rw [add]
  split
  · rcases h with rfl | h
    · assumption
    · exact h
  · rcases h with rfl | h
    · rw [ProjectCache.get?, Option.isSome_map, List.find?_isSome]
      exact ⟨(root, .ofProject d root), by simp, same_self root⟩
    · exact isSome_get?_append h _

theorem sound_foldl (d : Disk) {roots : List String} (hroots : ∀ root ∈ roots, Settled root)
    {cache : ProjectCache} (h : cache.Sound d) : (roots.foldl (add d) cache).Sound d := by
  induction roots generalizing cache with
  | nil => exact h
  | cons root roots ih =>
    exact ih (fun r hr => hroots r (List.mem_cons_of_mem _ hr))
      (sound_add h (hroots root (List.mem_cons_self ..)))

theorem isSome_get?_foldl (d : Disk) (roots : List String) {root : String} (cache : ProjectCache)
    (h : root ∈ roots ∨ (cache.get? root).isSome) :
    (ProjectCache.get? (roots.foldl (add d) cache) root).isSome := by
  induction roots generalizing cache with
  | nil => exact h.resolve_left List.not_mem_nil
  | cons added roots ih =>
    refine ih (cache.add d added) ?_
    rcases h with h | h
    · rcases List.mem_cons.1 h with rfl | h
      · exact .inr (isSome_get?_add d cache _ (.inl rfl))
      · exact .inl h
    · exact .inr (isSome_get?_add d cache _ (.inr h))

/-- The cache has what a look at the root itself would give. -/
theorem get?_ofRoots (d : Disk) {roots : List String} (hroots : ∀ root ∈ roots, Settled root)
    {root : String} (hroot : root ∈ roots) :
    (ofRoots d roots).get? root = some (.ofProject d root) := by
  have hsome := isSome_get?_foldl d roots [] (.inl hroot)
  obtain ⟨actions, hactions⟩ := Option.isSome_iff_exists.1 hsome
  have hsound : (ofRoots d roots).Sound d := sound_foldl d hroots fun p hp => absurd hp List.not_mem_nil
  rw [ofRoots, hactions, hsound.get? (hroots root hroot) hactions]

end ProjectCache

end WorkflowAudit
