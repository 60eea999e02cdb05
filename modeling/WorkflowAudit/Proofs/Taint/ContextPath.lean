import WorkflowAudit.Proofs.Taint.Matching

/-!
The path that a chain shows and the paths that it leads along. Following a link goes down one declared
label, which is shown as the link is written but for case; only an object filter is shown as the label
that it selected. Main statement: a chain that leads anywhere has a context path, and each path that it
leads along is that one but for case, with the labels that object filters selected in their places.
-/

namespace WorkflowAudit

/-! ### Texts up to case -/

namespace Text

theorem lower_append (a b : String) : lower (a ++ b) = lower a ++ lower b := by
  simp [lower]

theorem sameIgnoringCase_iff {a b : String} : sameIgnoringCase a b ↔ lower a = lower b := by
  rw [sameIgnoringCase, beq_iff_eq]

theorem sameIgnoringCase_refl (a : String) : sameIgnoringCase a a :=
  sameIgnoringCase_iff.2 rfl

/-- Paths that are the same but for case stay so with labels that are. -/
theorem sameIgnoringCase_dotted {a a' b b' : String} (ha : sameIgnoringCase a a')
    (hb : sameIgnoringCase b b') : sameIgnoringCase (a ++ "." ++ b) (a' ++ "." ++ b') := by
  rw [sameIgnoringCase_iff] at ha hb ⊢
  rw [lower_append, lower_append, lower_append, lower_append, ha, hb]

end Text

/-! ### The path that a chain shows -/

namespace Link

/-- A link as it is written; what it selects is shown as `*` if it does not name it. -/
def text : Link → String
  | root name | property name => name
  | computed | filter => Trie.anyElement

/-- A link as it is written, but an object filter as the label that it selected. -/
def filled : Link → String → String
  | filter, key => key
  | l, _ => l.text

end Link

theorem intercalate_concat {pieces : List String} (h : pieces ≠ []) (piece : String) :
    ".".intercalate (pieces ++ [piece]) = ".".intercalate pieces ++ "." ++ piece := by
  obtain ⟨first, rest, rfl⟩ := List.exists_cons_of_ne_nil h
  rw [List.cons_append, intercalate_cons, intercalate_cons, extended, List.foldl_append]
  rfl

theorem dotted_anyElement (path : String) : path ++ "." ++ Trie.anyElement = path ++ ".*" := by
  rw [String.append_assoc]
  rfl

namespace Expr

theorem links?_ne_nil {e : Expr} {links : List Link} (h : e.links? = some links) : links ≠ [] := by
  obtain ⟨name, ls, rfl, -⟩ := leads_of_links? .empty h
  simp

/-- One more link shows one more label. -/
theorem contextPath?_concat {r : Expr} (l : Link)
    (h : r.contextPath? = r.links?.map fun links => ".".intercalate (links.map Link.text)) :
    r.contextPath?.map (· ++ "." ++ l.text) =
      (r.links?.map (· ++ [l])).map fun links => ".".intercalate (links.map Link.text) := by
  rw [h]
  cases hlinks : r.links? with
  | none => rfl
  | some links =>
    have hne : links.map Link.text ≠ [] := by simpa using links?_ne_nil hlinks
    simp only [Option.map_some, List.map_append, List.map_singleton, intercalate_concat hne]

/-- The context path is what the links show. -/
theorem contextPath?_eq (e : Expr) :
    e.contextPath? = e.links?.map fun links => ".".intercalate (links.map Link.text) := by
  fun_induction Expr.links? e with
  | case1 o name => rfl
  | case2 o r name ih => exact contextPath?_concat (.property name) ih
  | case3 o r o' name ih => exact contextPath?_concat (.property name) ih
  | case4 o r k hk ih =>
    rw [contextPath?]
    · simpa only [Link.text, dotted_anyElement] using contextPath?_concat .computed ih
    · exact hk
  | case5 o r ih =>
    rw [contextPath?]
    simpa only [Link.text, dotted_anyElement] using contextPath?_concat .filter ih
  | case6 | case7 | case8 | case9 => rfl

/-- A chain that leads anywhere is a chain of links on a variable. -/
theorem exists_links?_of_reach {t : Trie} {e : Expr} (h : reach t e ≠ []) :
    ∃ links, e.links? = some links := by
  fun_induction Expr.links? e with
  | case1 o name => exact ⟨_, rfl⟩
  | case2 o r name ih | case3 o r o' name ih | case5 o r ih =>
    obtain ⟨links, hlinks⟩ := ih fun hnil => h (by rw [reach, hnil]; rfl)
    rw [hlinks]
    exact ⟨_, rfl⟩
  | case4 o r k hk ih =>
    obtain ⟨links, hlinks⟩ := ih fun hnil => h (by rw [reach, hnil]; exacts [rfl, hk])
    rw [hlinks]
    exact ⟨_, rfl⟩
  | case6 | case7 | case8 | case9 => exact absurd (by rw [reach]) h

end Expr

/-! ### The labels that a chain is led along -/

/-- The labels lead from the first tree down to the second. -/
def Trie.Descends : Trie → List String → Trie → Prop
  | t, [], below => below = t
  | t, k :: ks, below => ∃ c ∈ t.children, c.1 = k ∧ Descends c.2 ks below

theorem Trie.Descends.concat {t below : Trie} {ks : List String} (h : t.Descends ks below)
    {c : String × Trie} (hc : c ∈ below.children) : t.Descends (ks ++ [c.1]) c.2 := by
  induction ks generalizing t with
  | nil =>
    cases h
    exact ⟨c, hc, rfl, rfl⟩
  | cons k ks ih =>
    obtain ⟨d, hd, hk, h⟩ := h
    exact ⟨d, hd, hk, ih h⟩

/-- What is reached along the links by the declared labels, one for each link. An object filter selects
    an element or a named property. The path is what the links show but for case, with the labels that
    the object filters selected in their places. -/
structure Reached.IsTraced (t : Trie) (links : List Link) (keys : List String) (r : Reached) : Prop where
  descends : t.Descends keys r.trie
  filters : List.Forall₂ (fun l k => l = .filter → k ≠ Trie.anyProperty) links keys
  path : Text.sameIgnoringCase r.path (".".intercalate (List.zipWith Link.filled links keys))

theorem Trie.exists_of_child? {t below : Trie} {label : String} (h : t.child? label = some below) :
    ∃ c ∈ t.children, Text.sameIgnoringCase c.1 label ∧ c.2 = below := by
  obtain ⟨c, hc, rfl⟩ := Option.map_eq_some_iff.1 h
  exact ⟨c, List.mem_of_find?_eq_some hc, List.find?_some (a := c) hc, rfl⟩

/-- A link leads to a child and shows its own text but for case, or the label that it selected. -/
theorem Link.exists_of_mem_follow {l : Link} {r r' : Reached} (h : r' ∈ l.follow r) :
    ∃ c ∈ r.trie.children, r'.trie = c.2 ∧ (l = .filter → c.1 ≠ Trie.anyProperty) ∧
      ∃ piece, r'.path = r.path ++ "." ++ piece ∧ Text.sameIgnoringCase piece (l.filled c.1) := by
  cases l with
  | root name => cases h
  | property name =>
    have hfound := Option.mem_toList.1 h
    rw [Reached.property?] at hfound
    cases hfind : r.trie.named.find? fun c => Text.sameIgnoringCase c.1 name with
    | some c =>
      rw [hfind] at hfound
      cases hfound
      have hsame : Text.sameIgnoringCase c.1 name := List.find?_some (a := c) hfind
      exact ⟨c, List.mem_of_mem_filter (List.mem_of_find?_eq_some hfind), rfl, by simp, c.1, rfl, hsame⟩
    | none =>
      rw [hfind] at hfound
      obtain ⟨below, hbelow, rfl⟩ := Option.map_eq_some_iff.1 hfound
      obtain ⟨c, hc, -, rfl⟩ := Trie.exists_of_child? hbelow
      exact ⟨c, hc, rfl, by simp, name, rfl, Text.sameIgnoringCase_refl name⟩
  | computed =>
    obtain ⟨below, hbelow, rfl⟩ := Option.map_eq_some_iff.1 (Option.mem_toList.1 h)
    obtain ⟨label, hlabel⟩ : ∃ label, r.trie.child? label = some below := by
      rcases Option.or_eq_some_iff.1 hbelow with h | ⟨-, h⟩ <;> exact ⟨_, h⟩
    obtain ⟨c, hc, -, rfl⟩ := Trie.exists_of_child? hlabel
    exact ⟨c, hc, rfl, by simp, _, rfl, Text.sameIgnoringCase_refl _⟩
  | filter =>
    rw [follow, Reached.filtered] at h
    cases helement : r.trie.child? Trie.anyElement with
    | some below =>
      rw [helement] at h
      obtain rfl := List.mem_singleton.1 h
      obtain ⟨c, hc, hsame, rfl⟩ := Trie.exists_of_child? helement
      rw [Text.sameIgnoringCase_iff] at hsame
      refine ⟨c, hc, rfl, fun _ hany => ?_, _, rfl, Text.sameIgnoringCase_iff.2 hsame.symm⟩
      rw [hany, Trie.lower_anyElement, Trie.lower_anyProperty] at hsame
      exact Trie.anyElement_ne_anyProperty hsame.symm
    | none =>
      rw [helement] at h
      obtain ⟨c, hc, rfl⟩ := List.mem_map.1 h
      obtain ⟨hc, hname⟩ := List.mem_filter.1 hc
      simp only [Bool.and_eq_true, decide_eq_true_eq] at hname
      exact ⟨c, hc, rfl, fun _ => hname.2, c.1, rfl, Text.sameIgnoringCase_refl c.1⟩

/-- One more link goes down one more label. -/
theorem Reached.IsTraced.follow {t : Trie} {links : List Link} {keys : List String} {r r' : Reached}
    (h : r.IsTraced t links keys) (hne : links ≠ []) {l : Link} (hr' : r' ∈ l.follow r) :
    ∃ key, r'.IsTraced t (links ++ [l]) (keys ++ [key]) := by
  obtain ⟨c, hc, htrie, hfilter, piece, hpath, hpiece⟩ := l.exists_of_mem_follow hr'
  have hlength := h.filters.length_eq
  have hzip : List.zipWith Link.filled links keys ≠ [] := by
    intro hnil
    rcases List.zipWith_eq_nil_iff.1 hnil with rfl | rfl
    · exact hne rfl
    · exact hne (List.length_eq_zero_iff.1 hlength)
  refine ⟨c.1, ?_, ?_, ?_⟩
  · rw [htrie]
    exact h.descends.concat hc
  · exact List.rel_append h.filters (.cons hfilter .nil)
  · rw [List.zipWith_append hlength, List.zipWith_cons_cons, List.zipWith_nil_left,
      intercalate_concat hzip, hpath]
    exact Text.sameIgnoringCase_dotted h.path hpiece

/-- Everything that the links lead to is reached along declared labels. -/
theorem exists_isTraced_of_mem_followAll {t : Trie} {links ls : List Link} {rs : List Reached}
    (h : ∀ r ∈ rs, ∃ keys, r.IsTraced t links keys) (hne : links ≠ []) {r : Reached}
    (hr : r ∈ followAll ls rs) : ∃ keys, r.IsTraced t (links ++ ls) keys := by
  induction ls generalizing links rs with
  | nil =>
    rw [List.append_nil]
    exact h r hr
  | cons l ls ih =>
    have hnext : ∀ r' ∈ rs.flatMap l.follow, ∃ keys, r'.IsTraced t (links ++ [l]) keys := by
      intro r' hr'
      obtain ⟨r, hmem, hr'⟩ := List.mem_flatMap.1 hr'
      obtain ⟨keys, hkeys⟩ := h r hmem
      obtain ⟨key, hkey⟩ := hkeys.follow hne hr'
      exact ⟨_, hkey⟩
    have := ih hnext (by simp) hr
    rwa [List.append_assoc] at this

/-- Everything that a chain leads to is reached along declared labels. -/
theorem exists_isTraced_of_mem_reach {t : Trie} {e : Expr} {links : List Link}
    (he : e.links? = some links) {r : Reached} (hr : r ∈ reach t e) :
    ∃ keys, r.IsTraced t links keys := by
  obtain ⟨name, ls, rfl, -, hreach⟩ := leads_of_links? t he
  rw [hreach] at hr
  have hroot : ∀ r ∈ reach t (.var .start name), ∃ keys, r.IsTraced t [.root name] keys := by
    intro r hr
    obtain ⟨below, hbelow, rfl⟩ := Option.map_eq_some_iff.1 (Option.mem_toList.1 hr)
    obtain ⟨c, hc, -, rfl⟩ := Trie.exists_of_child? hbelow
    refine ⟨[c.1], ⟨c, hc, rfl, rfl⟩, .cons (by simp) .nil, ?_⟩
    exact Text.sameIgnoringCase_iff.2 (Text.lower_lower name)
  exact exists_isTraced_of_mem_followAll hroot (by simp) hr

/-! ### Chains without object filters -/

/-- A link that is no object filter leads to at most one tree. -/
theorem Link.length_follow_le {l : Link} (hl : l ≠ .filter) (r : Reached) : (l.follow r).length ≤ 1 := by
  cases l with
  | root name => exact Nat.zero_le 1
  | property name => exact Option.length_toList_le
  | computed => exact Option.length_toList_le
  | filter => exact absurd rfl hl

theorem length_followAll_le {ls : List Link} (hls : .filter ∉ ls) {rs : List Reached}
    (hrs : rs.length ≤ 1) : (followAll ls rs).length ≤ 1 := by
  induction ls generalizing rs with
  | nil => exact hrs
  | cons l ls ih =>
    rw [List.mem_cons, not_or] at hls
    have hnext : (rs.flatMap l.follow).length ≤ 1 := by
      rcases rs with _ | ⟨r, _ | ⟨r', rs⟩⟩
      · exact Nat.zero_le 1
      · rw [List.flatMap_singleton]
        exact l.length_follow_le (Ne.symm hls.1) r
      · simp at hrs
    exact ih hls.2 hnext

/-- Without object filters nothing is filled in. -/
theorem Link.zipWith_filled {ls : List Link} {keys : List String} (hls : .filter ∉ ls)
    (hlength : ls.length = keys.length) : List.zipWith filled ls keys = ls.map text := by
  induction ls generalizing keys with
  | nil => rfl
  | cons l ls ih =>
    cases keys with
    | nil => simp at hlength
    | cons key keys =>
      rw [List.mem_cons, not_or] at hls
      rw [List.zipWith_cons_cons, List.map_cons, ih hls.2 (by simpa using hlength)]
      cases l with
      | filter => exact absurd rfl hls.1
      | root | property | computed => rfl

/-- The paths that a chain leads along agree with the path that it shows. For every tree of untrusted
    paths, a chain that leads anywhere has a context path. Each path that it leads along is that one but
    for case, with the labels that object filters selected in their places. Without an object filter
    there is one, and it is the context path but for case. -/
theorem reached_paths_agree_with_contextPath {t : Trie} {e : Expr} (h : reach t e ≠ []) :
    ∃ links path, e.links? = some links ∧ e.contextPath? = some path ∧
      path = ".".intercalate (links.map Link.text) ∧
      (∀ r ∈ reach t e, ∃ keys, r.IsTraced t links keys) ∧
      (.filter ∉ links → ∃ r, reach t e = [r] ∧ Text.sameIgnoringCase r.path path) := by
  obtain ⟨links, hlinks⟩ := Expr.exists_links?_of_reach h
  have hpath := e.contextPath?_eq
  rw [hlinks, Option.map_some] at hpath
  have htraced : ∀ r ∈ reach t e, ∃ keys, r.IsTraced t links keys :=
    fun r hr => exists_isTraced_of_mem_reach hlinks hr
  refine ⟨links, _, hlinks, hpath, rfl, htraced, fun hfilter => ?_⟩
  obtain ⟨name, ls, rfl, -, hreach⟩ := leads_of_links? t hlinks
  have hone : (reach t e).length ≤ 1 := by
    rw [hreach]
    exact length_followAll_le (fun hmem => hfilter (List.mem_cons_of_mem _ hmem))
      Option.length_toList_le
  obtain ⟨r, hr⟩ : ∃ r, reach t e = [r] :=
    List.length_eq_one_iff.1 (Nat.le_antisymm hone (List.length_pos_of_ne_nil h))
  refine ⟨r, hr, ?_⟩
  obtain ⟨keys, htrace⟩ := htraced r (by simp [hr])
  have hsame := htrace.path
  rwa [Link.zipWith_filled hfilter htrace.filters.length_eq] at hsame

/-- An object filter and then a string index, `A.*['Q']`. -/
def filteredChain : Expr :=
  .index .start (.filter .start (.var .start "A")) (.literal .start (.string "Q"))

/-- The filter selects two properties; the index is any property below the first and a declared one, in
    another case, below the second. -/
theorem reached_paths_agree_at_filter :
    (reach (.ofPaths ["a.x.**", "a.Y.q", "b.*.c"]) filteredChain).map (·.path) = ["a.x.Q", "a.y.q"] ∧
    filteredChain.contextPath? = some "A.*.Q" ∧
    ∀ r ∈ reach (.ofPaths ["a.x.**", "a.Y.q", "b.*.c"]) filteredChain,
      ∃ keys, r.IsTraced (.ofPaths ["a.x.**", "a.Y.q", "b.*.c"]) [.root "A", .filter, .property "Q"] keys := by
  have hpaths : (reach (.ofPaths ["a.x.**", "a.Y.q", "b.*.c"]) filteredChain).map (·.path) =
      ["a.x.Q", "a.y.q"] := by decide +kernel
  have hne : reach (.ofPaths ["a.x.**", "a.Y.q", "b.*.c"]) filteredChain ≠ [] := by
    intro hnil
    rw [hnil] at hpaths
    cases hpaths
  obtain ⟨links, path, hlinks, hpath, rfl, htraced, -⟩ := reached_paths_agree_with_contextPath hne
  cases hlinks
  exact ⟨hpaths, hpath, htraced⟩

end WorkflowAudit
