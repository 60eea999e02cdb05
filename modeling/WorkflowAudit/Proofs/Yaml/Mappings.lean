import WorkflowAudit.Proofs.Yaml.Merging

/-!
The mappings in the tree of a text. A mapping is made of pairs, or of one pair that stands alone in a
sequence; what these two ways establish holds of all mappings in a tree, copies of anchored nodes
included. Main statements: mappings are completed from their merges, and a merge key is left as it is
nowhere but in the pairs that stand alone.
-/

namespace WorkflowAudit.Yaml.Node

variable {n : Node}

/-! ### All mappings of a tree -/

/-- The property holds of the entries of every mapping in a tree. -/
inductive Every (Q : Entries → Prop) : Node → Prop
  | null (p : Position) : Every Q (.null p)
  | scalar (s : Scalar) : Every Q (.scalar s)
  | sequence (p : Position) {items : List Node} (h : ∀ n ∈ items, Every Q n) :
      Every Q (.sequence p items)
  | mapping (p : Position) {entries : Entries} (h : Q entries) (hvalues : ∀ e ∈ entries, Every Q e.2) :
      Every Q (.mapping p entries)

/-- The property holds of the entries of every mapping in the anchored nodes. -/
def Anchors.Every (Q : Entries → Prop) (anchors : Anchors) : Prop :=
  ∀ a ∈ anchors, a.2.Every Q

/-- The two ways to make a mapping while `whole` is built give it the property, when the values that
    it is made of have it. -/
structure Establishes (document : List Char) (whole : Outline) (Q : Entries → Prop) : Prop where
  mapping {start : Nat} {pairs : List Outline} {before after : Anchors} {built entries : Entries}
    {sources : List (List Entries)} (hcomes : ComesTo document whole (.mapping start pairs) before)
    (hbuilt : buildPairs document pairs before = .ok (built, after))
    (hevery : ∀ e ∈ built, e.2.Every Q) (hsources : List.Forall₂ Spreads built.merged sources)
    (hentries : entries.Completes built.explicit sources.flatten) : Q entries
  pair {start : Nat} {key value : Outline} {before after : Anchors} {entry : Scalar × Node}
    (hcomes : ComesTo document whole (.pair start key value) before)
    (hentry : build document (.pair start key value) before =
      .ok (.mapping (.ofIndex document start) [entry], after)) : Q [entry]

variable {document : List Char} {whole : Outline} {Q : Entries → Prop}

theorem Every.entries? (h : n.Every Q) {entries : Entries} (he : n.entries? = some entries) :
    Q entries ∧ ∀ e ∈ entries, e.2.Every Q := by
  cases h with
  | mapping _ hQ hvalues => cases he; exact ⟨hQ, hvalues⟩
  | _ => cases he

theorem Every.items? (h : n.Every Q) {items : List Node} (hi : n.items? = some items) :
    ∀ m ∈ items, m.Every Q := by
  cases h with
  | sequence _ hitems => cases hi; exact hitems
  | _ => cases hi

theorem Every.get? (h : n.Every Q) {key : String} {v : Node} (hv : n.get? key = some v) :
    v.Every Q := by
  obtain ⟨entries, he, hget⟩ := Option.bind_eq_some_iff.1 hv
  obtain ⟨e, hfind, rfl⟩ := Option.map_eq_some_iff.1 hget
  exact (h.entries? he).2 e (List.mem_of_find?_eq_some hfind)

theorem Every.lends (h : n.Every Q) {source : Entries} (hsource : n.Lends source) :
    Q source ∧ ∀ e ∈ source, e.2.Every Q := by
  obtain hentries | ⟨items, hitems, m, hm, hentries⟩ := hsource
  · exact h.entries? hentries
  · exact (h.items? hitems m hm).entries? hentries

/-- The mappings that are merged have the property when the values of the pairs have it. -/
theorem of_mem_flatten {pairs : Entries} (h : ∀ e ∈ pairs, e.2.Every Q) {sources : List (List Entries)}
    (hsources : List.Forall₂ Spreads pairs.merged sources) : ∀ source ∈ sources.flatten, Q source := by
  intro source hsource
  obtain ⟨pair, hpair, hlends⟩ := exists_lends_of_mem_flatten hsources hsource
  exact ((h pair hpair).lends hlends).1

theorem every_ofPairs (hQ : Establishes document whole Q) {start : Nat} {pairs : List Outline}
    {before after : Anchors} {built : Entries}
    (hcomes : ComesTo document whole (.mapping start pairs) before)
    (hbuilt : buildPairs document pairs before = .ok (built, after))
    (hevery : ∀ e ∈ built, e.2.Every Q) (h : ofPairs (.ofIndex document start) built = .ok n) :
    n.Every Q := by
  obtain ⟨sources, hsources, hn⟩ := ofPairs_eq_ok.1 h
  obtain ⟨entries, rfl, hmem⟩ := mem_of_ofPairs h
  have hcompletes := Entries.completes_foldl built.explicit sources.flatten
  rw [← (mapping.inj hn).2] at hcompletes
  refine .mapping _ (hQ.mapping hcomes hbuilt hevery hsources hcompletes) fun e he => ?_
  obtain he | ⟨pair, hpair, source, hlends, he⟩ := hmem e he
  · exact hevery e he
  · exact ((hevery pair hpair).lends hlends).2 e he

theorem MakesEntry.every {blank : Scalar → Position} {key value : Outline} {entry : Scalar × Node}
    {anchors anchors' : Anchors} (h : MakesEntry document blank key value anchors entry anchors')
    (hkey : ∀ {m inner}, build document key anchors = .ok (m, inner) → inner.Every Q)
    (hvalue : ∀ {k inner v after}, value.isAbsent = false →
      build document key anchors = .ok (.scalar k, inner) → inner.Every Q →
      build document value inner = .ok (v, after) → v.Every Q ∧ after.Every Q) :
    entry.2.Every Q ∧ anchors'.Every Q := by
  cases h with
  | bare _ hk => exact ⟨.null _, hkey hk⟩
  | full hpresent hk hv => exact hvalue hpresent hk (hkey hk) hv

mutual

/-- What the two ways to make a mapping establish holds of all mappings that are built. -/
theorem every_build (hQ : Establishes document whole Q) {outline : Outline} {anchors anchors' : Anchors}
    (hcomes : ComesTo document whole outline anchors) (ha : anchors.Every Q) {n : Node}
    (h : build document outline anchors = .ok (n, anchors')) : n.Every Q ∧ anchors'.Every Q := by
  match outline with
  | .absent => rw [build] at h; cases h; exact ⟨.null _, ha⟩
  | .empty start => rw [build] at h; cases h; exact ⟨.null _, ha⟩
  | .scalar style start stop => rw [build] at h; cases h; exact ⟨.scalar _, ha⟩
  | .alias start written =>
    obtain ⟨hn, rfl⟩ := build_alias_eq_ok.1 h
    exact ⟨ha _ (mem_of_lookup hn), ha⟩
  | .sequence start items =>
    obtain ⟨nodes, hnodes, rfl⟩ := build_sequence_eq_ok.1 h
    obtain ⟨hevery, ha'⟩ := every_buildItems hQ (.all hcomes) ha hnodes
    exact ⟨.sequence _ hevery, ha'⟩
  | .mapping start pairs =>
    obtain ⟨built, hbuilt, hn⟩ := build_mapping_eq_ok.1 h
    obtain ⟨hevery, ha'⟩ := every_buildPairs hQ (.all hcomes) ha hbuilt
    exact ⟨every_ofPairs hQ hcomes hbuilt hevery hn, ha'⟩
  | .pair start key value =>
    cases hkey : key.isAbsent with
    | true =>
      rw [build_pair_of_absent hkey] at h
      cases h
      exact ⟨.null _, ha⟩
    | false =>
      obtain ⟨entry, hentry, rfl⟩ := (build_pair_eq_ok hkey).1 h
      obtain ⟨hvalue, ha'⟩ := hentry.every
        (fun hk => (every_build hQ (.loneKey hcomes hkey) ha hk).2)
        (fun hpresent hk hinner hv => every_build hQ (.loneValue hcomes hkey hpresent hk) hinner hv)
      exact ⟨.mapping _ (hQ.pair hcomes h) (List.forall_mem_singleton.2 hvalue), ha'⟩
  | .anchored name content =>
    obtain ⟨inner, hn, rfl⟩ := build_anchored_eq_ok.1 h
    obtain ⟨hevery, hinner⟩ := every_build hQ (.content hcomes) ha hn
    exact ⟨hevery, List.forall_mem_cons.2 ⟨hevery, hinner⟩⟩
termination_by sizeOf outline

theorem every_buildItems (hQ : Establishes document whole Q) {items : List Outline}
    {anchors anchors' : Anchors} (hcomes : ComesToItems document whole items anchors)
    (ha : anchors.Every Q) {nodes : List Node}
    (h : buildItems document items anchors = .ok (nodes, anchors')) :
    (∀ n ∈ nodes, n.Every Q) ∧ anchors'.Every Q := by
  match items with
  | [] => rw [buildItems] at h; cases h; exact ⟨List.forall_mem_nil _, ha⟩
  | item :: rest =>
    obtain ⟨n, inner, ns, hn, hns, rfl⟩ := buildItems_cons_eq_ok.1 h
    obtain ⟨hfirst, hinner⟩ := every_build hQ (.item hcomes) ha hn
    obtain ⟨hrest, ha'⟩ := every_buildItems hQ (.rest hcomes hn) hinner hns
    exact ⟨List.forall_mem_cons.2 ⟨hfirst, hrest⟩, ha'⟩
termination_by sizeOf items

theorem every_buildPairs (hQ : Establishes document whole Q) {pairs : List Outline}
    {anchors anchors' : Anchors} (hcomes : ComesToPairs document whole pairs anchors)
    (ha : anchors.Every Q) {entries : Entries}
    (h : buildPairs document pairs anchors = .ok (entries, anchors')) :
    (∀ e ∈ entries, e.2.Every Q) ∧ anchors'.Every Q := by
  match pairs with
  | [] => rw [buildPairs] at h; cases h; exact ⟨List.forall_mem_nil _, ha⟩
  | pair :: rest =>
    by_cases hskipped : ∀ start key value, pair = .pair start key value → key.isAbsent = true
    · rw [buildPairs_cons_of_skipped hskipped] at h
      exact every_buildPairs hQ (.skipped hcomes hskipped) ha h
    · simp only [not_forall, Bool.not_eq_true] at hskipped
      obtain ⟨start, key, value, rfl, hkey⟩ := hskipped
      obtain ⟨entry, inner, es, hentry, hes, rfl⟩ := (buildPairs_cons_eq_ok hkey).1 h
      obtain ⟨hfirst, hinner⟩ := hentry.every
        (fun hk => (every_build hQ (.key hcomes hkey) ha hk).2)
        (fun hpresent hk hinner hv => every_build hQ (.value hcomes hkey hpresent hk) hinner hv)
      obtain ⟨hrest, ha'⟩ := every_buildPairs hQ (.rest hcomes hkey hentry) hinner hes
      exact ⟨List.forall_mem_cons.2 ⟨hfirst, hrest⟩, ha'⟩
termination_by sizeOf pairs

end

/-- What the two ways to make a mapping establish holds of all mappings in the tree of a text. -/
theorem every_parse {text : String} {root : Node}
    (hQ : Establishes text.toList (firstOutline text) Q) (h : parse text = .ok root) : root.Every Q := by
  obtain ⟨p, rfl⟩ | ⟨anchors, hbuild⟩ := parse_eq_ok h
  · exact .null p
  · exact (every_build hQ .whole (List.forall_mem_nil _) hbuild).1

/-- The entry of a pair that stands alone in a sequence. -/
def IsLone (document : List Char) (whole : Outline) (entry : Scalar × Node) : Prop :=
  ∃ start key value before after, ComesTo document whole (.pair start key value) before ∧
    build document (.pair start key value) before =
      .ok (.mapping (.ofIndex document start) [entry], after)

/-- How the entries of a mapping come about while `whole` is built. A pair that stands alone is taken as
    it is; the explicit ones of several pairs are completed from the mappings that their merge keys
    spread, and these have come about in the same way. -/
inductive ComesAbout (document : List Char) (whole : Outline) : Entries → Prop
  | lone {entry : Scalar × Node} (h : IsLone document whole entry) : ComesAbout document whole [entry]
  | completed {start : Nat} {pairs : List Outline} {before after : Anchors} {built entries : Entries}
      {sources : List (List Entries)} (hcomes : ComesTo document whole (.mapping start pairs) before)
      (hbuilt : buildPairs document pairs before = .ok (built, after))
      (hsources : List.Forall₂ Spreads built.merged sources)
      (hnested : ∀ source ∈ sources.flatten, ComesAbout document whole source)
      (hentries : entries.Completes built.explicit sources.flatten) : ComesAbout document whole entries

theorem establishes_comesAbout (document : List Char) (whole : Outline) :
    Establishes document whole (ComesAbout document whole) where
  mapping hcomes hbuilt hevery hsources hentries :=
    .completed hcomes hbuilt hsources (of_mem_flatten hevery hsources) hentries
  pair hcomes hentry := .lone ⟨_, _, _, _, _, hcomes, hentry⟩

/-- A mapping whose pairs are built, and whose merge keys have values that spread, is built of its
    explicit pairs, completed from the merged mappings in turn. Every mapping in the tree of a text
    comes about in this way, and so do the mappings merged into it, copies of anchored nodes included;
    only a pair that stands alone in a sequence is taken as it is. -/
theorem mappings_are_completed_from_merges :
    (∀ document start pairs anchors anchors' built sources,
      buildPairs document pairs anchors = .ok (built, anchors') →
      List.Forall₂ Spreads built.merged sources →
      ∃ entries : Entries, build document (.mapping start pairs) anchors =
          .ok (.mapping (.ofIndex document start) entries, anchors') ∧
        entries.Completes built.explicit sources.flatten) ∧
    ∀ text root, parse text = .ok root →
      root.Every (ComesAbout text.toList (firstOutline text)) := by
  constructor
  · intro document start pairs anchors anchors' built sources hbuilt hsources
    refine ⟨_, build_mapping_eq_ok.2 ⟨built, hbuilt, ofPairs_eq_ok.2 ⟨sources, hsources, rfl⟩⟩, ?_⟩
    exact Entries.completes_foldl built.explicit sources.flatten
  · intro text root h
    exact every_parse (establishes_comesAbout text.toList (firstOutline text)) h

/-- The text of a mapping that merges the mappings of a list, with a key that stands twice. -/
def spreadText : List Char :=
  "<<: [*m, x]\nc: 3\nc: 4\n".toList

/-- The character at an index of the text, as a scalar. -/
def spreadWord (i : Nat) : Scalar :=
  .ofSpan spreadText .plain i (i + 1)

/-- The entries of the anchored mapping. -/
def spreadSource : Entries :=
  [(spreadWord 12, .scalar (spreadWord 9)), (spreadWord 6, .scalar (spreadWord 9)),
    (spreadWord 6, .scalar (spreadWord 15))]

/-- The outlines of the pairs in the text. -/
def spreadPairs : List Outline :=
  [.pair 0 (.scalar .plain 0 2) (.sequence 4 [.alias 5 "m", .scalar .plain 9 10]),
    .pair 12 (.scalar .plain 12 13) (.scalar .plain 15 16),
    .pair 17 (.scalar .plain 17 18) (.scalar .plain 20 21)]

/-- The entries that are built from the pairs, before the mappings of the list are merged. -/
def spreadBuilt : Entries :=
  [(.ofSpan spreadText .plain 0 2,
      .sequence (.ofIndex spreadText 4) [.mapping .start spreadSource, .scalar (spreadWord 9)]),
    (spreadWord 12, .scalar (spreadWord 15)), (spreadWord 17, .scalar (spreadWord 20))]

/-- Merges through an alias of a mapping that is itself completed from another. -/
def layeredText : String :=
  "- &b {a: 1}\n- &m {c: 2, <<: *b}\n- <<: [*m, x, {a: 9, d: 4}]\n  c: 3\n  c: 4\n"

theorem layered_mappings_are_completed :
    (∃ entries : Entries,
      build spreadText (.mapping 0 spreadPairs) [("m", .mapping .start spreadSource)] =
        .ok (.mapping (.ofIndex spreadText 0) entries, [("m", .mapping .start spreadSource)]) ∧
      entries.Completes spreadBuilt.explicit [spreadSource]) ∧
    ∃ root, parse layeredText = .ok root ∧
      root.Every (ComesAbout layeredText.toList (firstOutline layeredText)) := by
  constructor
  · exact mappings_are_completed_from_merges.1 spreadText 0 spreadPairs _ _ spreadBuilt [[spreadSource]]
      rfl (.cons (.sequence ..) .nil)
  · have haccepted : (parse layeredText).toBool = true := by decide +kernel
    cases h : parse layeredText with
    | error e => rw [h] at haccepted; cases haccepted
    | ok root => exact ⟨root, rfl, mappings_are_completed_from_merges.2 layeredText root h⟩

/-! ### Merge keys that are left -/

/-- No pair of a mapping keeps its merge key; what is merged has only the merge keys of lone pairs. -/
theorem establishes_merge_keys_lone (document : List Char) (whole : Outline) :
    Establishes document whole fun entries =>
      ∀ entry ∈ entries, isMergeKey entry.1 → IsLone document whole entry where
  mapping := by
    intro start pairs before after built entries sources _ _ hevery hsources hentries entry hentry hmerge
    obtain ⟨added, rfl, -, -, hdrawn⟩ := hentries.added
    obtain hexplicit | hadded := List.mem_append.1 hentry
    · rw [(Entries.mem_explicit.1 hexplicit).2] at hmerge
      cases hmerge
    · -- what is merged was built before, and has lone merge keys only
      obtain ⟨source, hsource, hentry⟩ := hdrawn entry hadded
      exact of_mem_flatten hevery hsources source hsource entry hentry hmerge
  pair := by
    intro start key value before after entry hcomes hentry
    exact List.forall_mem_singleton.2 fun _ => ⟨_, _, _, _, _, hcomes, hentry⟩

/-- A mapping in the tree of a text has an entry under a merge key only where that entry is a pair that
    stands alone in a sequence, or a copy of it. -/
theorem merge_keys_left_in_lone_pairs {text : String} {root : Node} (h : parse text = .ok root) :
    root.Every fun entries => ∀ entry ∈ entries, isMergeKey entry.1 →
      IsLone text.toList (firstOutline text) entry :=
  every_parse (establishes_merge_keys_lone text.toList (firstOutline text)) h

/-- A pair with a merge key that stands alone, and a mapping that merges it. -/
def loneSpreadText : String :=
  "s: &s [<<: {a: 1}]\nm:\n  <<: *s\n"

theorem merge_keys_left_in_lone_spread : ∃ root, parse loneSpreadText = .ok root ∧
    root.Every fun entries => ∀ entry ∈ entries, isMergeKey entry.1 →
      IsLone loneSpreadText.toList (firstOutline loneSpreadText) entry := by
  have haccepted : (parse loneSpreadText).toBool = true := by decide +kernel
  cases h : parse loneSpreadText with
  | error e => rw [h] at haccepted; cases haccepted
  | ok root => exact ⟨root, rfl, merge_keys_left_in_lone_pairs h⟩

/-- The merge key of a pair that stands alone stays in the tree. -/
theorem lone_merge_key_stays : ∃ root, parse "k: [<<: {a: 1}]\n" = .ok root ∧
    ¬root.Every fun entries => ∀ entry ∈ entries, isMergeKey entry.1 = false := by
  have hkey : (do
      let root ← (parse "k: [<<: {a: 1}]\n").toOption
      let list ← root.get? "k"
      let lone ← (← list.items?).head?
      let entry ← (← lone.entries?).head?
      return isMergeKey entry.1) = some true := by decide +kernel
  simp only [Option.bind_eq_bind, Option.bind_eq_some_iff, Option.pure_def, Option.some.injEq] at hkey
  obtain ⟨root, hroot, list, hlist, items, hitems, lone, hlone, entries, hentries, entry, hentry,
    hmerge⟩ := hkey
  refine ⟨root, ?_, fun hevery => ?_⟩
  · cases h : parse "k: [<<: {a: 1}]\n" with
    | error e => rw [h] at hroot; cases hroot
    | ok root' => rw [h] at hroot; cases hroot; rfl
  · have hitem := (hevery.get? hlist).items? hitems lone (List.mem_of_head? hlone)
    have hfree := (hitem.entries? hentries).1 entry (List.mem_of_head? hentry)
    rw [hmerge] at hfree
    cases hfree

end WorkflowAudit.Yaml.Node
