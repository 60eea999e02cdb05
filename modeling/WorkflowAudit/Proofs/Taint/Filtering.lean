import WorkflowAudit.Proofs.Taint.ContextPath

/-!
Object filters in the place of properties. A filter accepts each label that names a property, but not the
label for any property. Main statement: with the paths that are known to be under an attacker's control, a
reported chain in which a property is replaced by an object filter is still reported if and only if a
declared path that accepts the chain names that property.
-/

namespace WorkflowAudit

/-! ### One link replaced -/

/-- The second chain is the first with an object filter in the place of link number `n`, a property or a
    string index; the variable is number zero. -/
inductive Expr.FilteredAt : Nat → Expr → Expr → Prop
  | property {o : Origin} {r : Expr} {name : String} {front : List Link} : r.links? = some front →
      FilteredAt front.length (.property o r name) (.filter o r)
  | stringIndex {o o' : Origin} {r : Expr} {name : String} {front : List Link} : r.links? = some front →
      FilteredAt front.length (.index o r (.literal o' (.string name))) (.filter o r)
  | inProperty {n : Nat} {o : Origin} {r r' : Expr} {name : String} : FilteredAt n r r' →
      FilteredAt n (.property o r name) (.property o r' name)
  | inFilter {n : Nat} {o : Origin} {r r' : Expr} : FilteredAt n r r' →
      FilteredAt n (.filter o r) (.filter o r')
  | inIndex {n : Nat} {o : Origin} {r r' k : Expr} : FilteredAt n r r' →
      FilteredAt n (.index o r k) (.index o r' k)

theorem Expr.FilteredAt.exists_links? {n : Nat} {e e' : Expr} (h : FilteredAt n e e') :
    ∃ front name back, front.length = n ∧ e.links? = some (front ++ .property name :: back) ∧
      e'.links? = some (front ++ .filter :: back) := by
  induction h with
  | @property o r name front hr => exact ⟨front, name, [], rfl, by simp [links?, hr], by simp [links?, hr]⟩
  | @stringIndex o o' r name front hr =>
    exact ⟨front, name, [], rfl, by simp [links?, hr], by simp [links?, hr]⟩
  | @inProperty n o r r' last h ih =>
    obtain ⟨front, name, back, hn, hr, hr'⟩ := ih
    exact ⟨front, name, back ++ [.property last], hn, by simp [links?, hr], by simp [links?, hr']⟩
  | inFilter h ih =>
    obtain ⟨front, name, back, hn, hr, hr'⟩ := ih
    exact ⟨front, name, back ++ [.filter], hn, by simp [links?, hr], by simp [links?, hr']⟩
  | @inIndex n o r r' k h ih =>
    obtain ⟨front, name, back, hn, hr, hr'⟩ := ih
    -- the index shows the same link on both chains
    obtain ⟨l, hl⟩ : ∃ l, ∀ {r : Expr}, (Expr.index o r k).links? = r.links?.map (· ++ [l]) := by
      by_cases hk : ∃ o' s, k = .literal o' (.string s)
      · obtain ⟨o', s, rfl⟩ := hk
        exact ⟨.property s, rfl⟩
      · refine ⟨.computed, fun {r} => ?_⟩
        rw [links?]
        exact fun o' s hs => hk ⟨o', s, hs⟩
    exact ⟨front, name, back ++ [l], hn, by simp [hl, hr], by simp [hl, hr']⟩

/-- The label that accepts a link of a chain. With another link that it accepts in this place, the labels
    still accept the chain. -/
theorem exists_label_of_accepts {front back : List Link} {l : Link} {ks : List String}
    (h : Accepts (front ++ l :: back) ks) : ∃ k, ks[front.length]? = some k ∧ l.accepts k ∧
      ∀ l' : Link, l'.accepts k → Accepts (front ++ l' :: back) ks := by
  induction front generalizing ks with
  | nil =>
    obtain ⟨k, ks, hk, hback, rfl⟩ := List.forall₂_cons_left_iff.1 h
    exact ⟨k, rfl, hk, fun l' hl' => .cons hl' hback⟩
  | cons first front ih =>
    obtain ⟨k', ks, hfirst, hrest, rfl⟩ := List.forall₂_cons_left_iff.1 h
    obtain ⟨k, hk, hl, hreplace⟩ := ih hrest
    exact ⟨k, hk, hl, fun l' hl' => .cons hfirst (hreplace l' hl')⟩

/-! ### What is reported -/

/-- A chain is reported if a declared path accepts it. -/
theorem judge_ne_nil_iff {paths : List String} (hsep : Trie.Separable paths) {e : Expr} {name : String}
    {ls : List Link} (he : e.links? = some (.root name :: ls)) (hname : Lexeme.IsName name.toList) :
    judge (.ofPaths paths) e ≠ [] ↔
      ∃ path ∈ paths, Accepts (.root name :: ls) (Trie.labels path) := by
  have hjudge : judge (.ofPaths paths) e ≠ [] ↔ arrivals (reach (.ofPaths paths) e) ≠ [] := by
    by_cases hnil : arrivals (reach (.ofPaths paths) e) = [] <;> simp [judge_eq, hnil]
  have hperm := perm_ends_ofPaths hsep.prefixFree (.root name) ls
  rw [hjudge, arrivals_reach (Trie.tidy_ofPaths paths) hsep.loneWildcards he hname, Ne,
    List.map_eq_nil_iff, ← List.length_eq_zero_iff, hperm.length_eq, List.length_eq_zero_iff,
    List.filter_eq_nil_iff]
  simp

/-- A text is a name in any case if it is one in lower case. -/
theorem Lexeme.isName_of_lower {name : String} (h : IsName (Text.lower name).toList) :
    IsName name.toList := by
  have hcase : ∀ c : Char, c.toLower = c ∨ c.isAlpha := by
    intro c
    rw [Char.toLower]
    split
    · rename_i hrange
      have hupper : c.isUpper := by simpa [Char.isUpper] using hrange
      exact Or.inr (by simp [Char.isAlpha, hupper])
    · exact Or.inl rfl
  have hstart : ∀ c : Char, isNameStart c.toLower → isNameStart c := by
    intro c hc
    rcases hcase c with heq | halpha
    · rwa [heq] at hc
    · simp [isNameStart, halpha]
  have hchar : ∀ c : Char, isNameChar c.toLower → isNameChar c := by
    intro c hc
    rcases hcase c with heq | halpha
    · rwa [heq] at hc
    · simp [isNameChar, Char.isAlphanum, halpha]
  rw [Text.lower, String.toList_ofList] at h
  cases hname : name.toList with
  | nil =>
    rw [hname] at h
    exact h
  | cons c cs =>
    rw [hname, List.map_cons] at h
    exact ⟨hstart c h.1, fun x hx => hchar x (h.2 _ (List.mem_map_of_mem hx))⟩

theorem followAll_nil (ls : List Link) : followAll ls [] = [] := by
  induction ls with
  | nil => rfl
  | cons l ls ih => exact ih

/-- The label for any property stands in two declared paths only. -/
theorem labels_of_mem_untrustedPaths {path : String} (h : path ∈ untrustedPaths) :
    ((Trie.labels path).head? = some "github" ∧ Trie.anyProperty ∉ Trie.labels path) ∨
      Trie.labels path = ["needs", "**", "outputs", "**"] ∨
      Trie.labels path = ["steps", "**", "outputs", "**"] := by
  have hall : ((untrustedPaths.map Trie.labels).all fun ks =>
      ks.head? == some "github" && !ks.contains Trie.anyProperty ||
        ks == ["needs", "**", "outputs", "**"] || ks == ["steps", "**", "outputs", "**"]) = true := by
    cbv
  have := List.all_eq_true.1 hall _ (List.mem_map_of_mem h)
  simpa only [Bool.or_eq_true, Bool.and_eq_true, Bool.not_eq_true', List.contains_eq_mem, beq_iff_eq,
    decide_eq_false_iff_not, or_assoc] using this

/-- A chain that leads to untrusted paths starts at a variable that has a name, since they do. -/
theorem isName_of_reach {e : Expr} {name : String} {ls : List Link}
    (he : e.links? = some (.root name :: ls)) (h : reach untrusted e ≠ []) :
    Lexeme.IsName name.toList := by
  obtain ⟨name', ls', heq, -, hreach⟩ := leads_of_links? untrusted he
  cases heq
  have hroot : reach untrusted (.var .start name) ≠ [] := by
    intro hnil
    rw [hreach, hnil, followAll_nil] at h
    exact h rfl
  obtain ⟨r, hr⟩ := List.exists_mem_of_ne_nil _ hroot
  obtain ⟨below, hbelow, -⟩ := Option.map_eq_some_iff.1 (Option.mem_toList.1 hr)
  obtain ⟨c, hc, hsame, -⟩ := Trie.exists_of_child? hbelow
  -- the label is the first of a declared path
  have hwalk : (Trie.ofPaths untrustedPaths).Walks [c.1] := ⟨c, hc, rfl, trivial⟩
  obtain ⟨path, hpath, hfirst⟩ := (Trie.walks_ofPaths (by simp)).1 hwalk
  have hhead : (Trie.labels path).head? = some c.1 := by
    obtain ⟨rest, hrest⟩ := hfirst
    rw [← hrest]
    rfl
  refine Lexeme.isName_of_lower ?_
  rw [← Text.sameIgnoringCase_iff.1 hsame]
  rcases labels_of_mem_untrustedPaths hpath with ⟨hk, -⟩ | hk | hk
  all_goals
    rw [hk] at hhead
    rw [← Option.some.inj hhead]
    decide

/-- A declared path with the label for any property shares its first label with no other. -/
theorem labels_eq_of_anyProperty_mem {path path' : String} (hpath : path ∈ untrustedPaths)
    (hpath' : path' ∈ untrustedPaths) (hany : Trie.anyProperty ∈ Trie.labels path)
    (hfirst : (Trie.labels path).head? = (Trie.labels path').head?) :
    Trie.labels path' = Trie.labels path := by
  rcases labels_of_mem_untrustedPaths hpath with ⟨-, hnone⟩ | hk | hk
  · exact absurd hany hnone
  all_goals
    rcases labels_of_mem_untrustedPaths hpath' with ⟨hk', -⟩ | hk' | hk' <;>
      simp [hk, hk'] at hfirst ⊢

/-- The first label of a path that accepts a chain is the name of its variable in lower case. -/
theorem head?_labels_of_accepts {name path : String} {ls : List Link}
    (h : Accepts (.root name :: ls) (Trie.labels path)) :
    (Trie.labels path).head? = some (Text.lower name) := by
  obtain ⟨k, ks, hk, -, hks⟩ := List.forall₂_cons_left_iff.1 h
  simp only [Link.accepts, Bool.and_eq_true, Text.sameIgnoringCase_iff] at hk
  have hlower : Text.lower k = k := by
    obtain ⟨piece, -, rfl⟩ := List.mem_map.1 (hks ▸ List.mem_cons_self .. : k ∈ Trie.labels path)
    exact Text.lower_lower piece
  rw [hks, List.head?_cons, ← hk.2, hlower]

/-- An object filter in the place of a property keeps the verdict exactly if the property is one that a
    declared path names. With the paths that are known to be under an attacker's control, let a chain be
    reported and let one of its properties or string indices be replaced by an object filter. The result
    is reported if and only if a declared path accepts the chain with another label than that for any
    property in this place. -/
theorem filter_reported_iff_property_named {n : Nat} {e e' : Expr} (hfilter : Expr.FilteredAt n e e')
    (h : judge untrusted e ≠ []) : judge untrusted e' ≠ [] ↔ ∃ path ∈ untrustedPaths, ∃ links,
      e.links? = some links ∧ Accepts links (Trie.labels path) ∧
        (Trie.labels path)[n]? ≠ some Trie.anyProperty := by
  obtain ⟨front, name, back, rfl, he, he'⟩ := hfilter.exists_links?
  have hreach : reach untrusted e ≠ [] := by
    intro hnil
    rw [judge_eq, hnil] at h
    exact h rfl
  -- both chains start at the variable of the links before the one that is replaced
  obtain ⟨first, ls, rfl⟩ : ∃ first ls, front = .root first :: ls := by
    obtain ⟨first, ls, hlinks, -⟩ := leads_of_links? untrusted he
    cases front with
    | nil => cases hlinks
    | cons l front => exact ⟨first, front, by cases hlinks; rfl⟩
  have hname := isName_of_reach he hreach
  rw [untrusted, judge_ne_nil_iff Trie.separable_untrustedPaths he hname] at h
  rw [untrusted, judge_ne_nil_iff Trie.separable_untrustedPaths he' hname]
  constructor
  · rintro ⟨path', hpath', ha'⟩
    obtain ⟨path, hpath, ha⟩ := h
    refine ⟨path, hpath, _, he, ha, fun hany => ?_⟩
    have hsame := labels_eq_of_anyProperty_mem hpath hpath' (List.mem_of_getElem? hany)
      ((head?_labels_of_accepts ha).trans (head?_labels_of_accepts ha').symm)
    have hreplaced : Accepts ((.root first :: ls) ++ .filter :: back) (Trie.labels path) := hsame ▸ ha'
    obtain ⟨k, hk, haccepts, -⟩ := exists_label_of_accepts hreplaced
    rw [hk] at hany
    cases hany
    exact absurd haccepts (by decide)
  · rintro ⟨path, hpath, links, hlinks, ha, hany⟩
    rw [he] at hlinks
    cases hlinks
    obtain ⟨k, hk, -, hreplace⟩ := exists_label_of_accepts ha
    refine ⟨path, hpath, hreplace .filter ?_⟩
    rw [hk] at hany
    simpa [Link.accepts] using hany

/-- A property that is named in a declared path, `github.event['Issue'].title`. -/
def issueTitle : Expr :=
  .property .start (.index .start (.property .start (.var .start "github") "event")
    (.literal ⟨1, 14, 13⟩ (.string "Issue"))) "title"

/-- The same with an object filter, `github.event.*.title`. -/
def filteredTitle : Expr :=
  .property .start (.filter .start (.property .start (.var .start "github") "event")) "title"

/-- The declared path names the issue, so the filter keeps the verdict. -/
theorem filter_reported_at_index : Expr.FilteredAt 2 issueTitle filteredTitle ∧
    judge untrusted issueTitle ≠ [] ∧ judge untrusted filteredTitle ≠ [] := by
  have hfilter : Expr.FilteredAt 2 issueTitle filteredTitle :=
    .inProperty (@Expr.FilteredAt.stringIndex _ _ _ _ [.root "github", .property "event"] rfl)
  have hpath : "github.event.issue.title" ∈ untrustedPaths := List.mem_cons_self ..
  have haccepts : Accepts [.root "github", .property "event", .property "Issue", .property "title"]
      (Trie.labels "github.event.issue.title") := by decide +kernel
  have h : judge untrusted issueTitle ≠ [] :=
    (judge_ne_nil_iff Trie.separable_untrustedPaths rfl (by decide)).2 ⟨_, hpath, haccepts⟩
  exact ⟨hfilter, h, (filter_reported_iff_property_named hfilter h).2
    ⟨_, hpath, _, rfl, haccepts, by decide +kernel⟩⟩

/-- A property that no declared path names, `needs.build.outputs.version`. -/
def needsOutput : Expr :=
  .property .start (.property .start (.property .start (.var .start "needs") "build") "outputs") "version"

/-- The same with an object filter, `needs.*.outputs.version`. -/
def filteredNeeds : Expr :=
  .property .start (.property .start (.filter .start (.var .start "needs")) "outputs") "version"

/-- Any output of one job is reported, but not the same output of all jobs. -/
theorem filter_misses_any_property :
    Expr.parse "needs.build.outputs.version" = .ok needsOutput ∧
    Expr.parse "needs.*.outputs.version" = .ok filteredNeeds ∧
    Expr.FilteredAt 1 needsOutput filteredNeeds ∧
    judge untrusted needsOutput ≠ [] ∧ judge untrusted filteredNeeds = [] := by
  refine ⟨by cbv, by cbv, ?_, ?_, ?_⟩
  · exact .inProperty (.inProperty (@Expr.FilteredAt.property _ _ _ [.root "needs"] rfl))
  · refine (judge_ne_nil_iff Trie.separable_untrustedPaths rfl (by decide)).2
      ⟨"needs.**.outputs.**", by simp [untrustedPaths], ?_⟩
    decide +kernel
  · by_contra h
    obtain ⟨path, hpath, ha⟩ :=
      (judge_ne_nil_iff Trie.separable_untrustedPaths rfl (by decide)).1 h
    rcases labels_of_mem_untrustedPaths hpath with ⟨hk, -⟩ | hk | hk
    · rw [head?_labels_of_accepts ha] at hk
      exact absurd hk (by decide)
    · rw [hk] at ha
      exact absurd ha (by decide)
    · rw [hk] at ha
      exact absurd ha (by decide)

end WorkflowAudit
