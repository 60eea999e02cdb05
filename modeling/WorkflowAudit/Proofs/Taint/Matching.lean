import Mathlib
import WorkflowAudit.Proofs.Expr.Word
import WorkflowAudit.Proofs.Taint.Declared
import WorkflowAudit.Taint

/-!
Matching a chain of accessors against the declared paths, link by link. Main statement: following a
chain through the tree of paths arrives at exactly the declared paths that accept it, if no path is a
proper prefix of another and a wildcard stands alone wherever it stands.
-/

namespace WorkflowAudit

/-! ### Chains and the labels that accept them -/

/-- One link of an accessor chain that starts at a variable. -/
inductive Link where
  | root (name : String)
  | property (name : String)
  | computed
  | filter
  deriving DecidableEq, Repr

/-- The links of an accessor chain, the variable included; nothing if it does not start at one. -/
def Expr.links? : Expr → Option (List Link)
  | .var _ name => some [.root name]
  | .property _ r name => r.links?.map (· ++ [.property name])
  | .index _ e (.literal _ (.string name)) => e.links?.map (· ++ [.property name])
  | .index _ e _ => e.links?.map (· ++ [.computed])
  | .filter _ r => r.links?.map (· ++ [.filter])
  | .literal .. | .call .. | .binary .. | .not .. => none

namespace Link

/-- Whether a declared label accepts a link. -/
def accepts : Link → String → Bool
  | root name, label => !Trie.isWildcard label && Text.sameIgnoringCase label name
  | property name, label =>
    label = Trie.anyProperty || (!Trie.isWildcard label && Text.sameIgnoringCase label name)
  | computed, label => Trie.isWildcard label
  | filter, label => label ≠ Trie.anyProperty

/-- How a link is shown in the path that accepts it. -/
def shown : Link → String → String
  | property name, label => if label = Trie.anyProperty then name else label
  | computed, _ => Trie.anyElement
  | root _, label | filter, label => label

end Link

/-- The labels accept the chain link by link. -/
def Accepts (links : List Link) (labels : List String) : Prop :=
  List.Forall₂ (fun l k => l.accepts k) links labels

instance (links : List Link) (labels : List String) : Decidable (Accepts links labels) :=
  inferInstanceAs (Decidable (List.Forall₂ _ _ _))

/-- The path that is reported for a chain and labels that accept it. -/
def reported (links : List Link) (labels : List String) : String :=
  ".".intercalate (List.zipWith Link.shown links labels)

/-! ### One link -/

/-- What a link after the root leads to. -/
def Link.follow : Link → Reached → List Reached
  | root _, _ => []
  | property name, r => (r.property? name).toList
  | computed, r => r.element?.toList
  | filter, r => r.filtered

/-- Among different labels at most one is found, so finding it is filtering. -/
theorem find?_toList_eq_filter {cs : List (String × Trie)} {p : String × Trie → Bool}
    (hnodup : (cs.map (·.1)).Nodup) (hone : ∀ c ∈ cs, ∀ d ∈ cs, p c → p d → c.1 = d.1) :
    (cs.find? p).toList = cs.filter p := by
  induction cs with
  | nil => rfl
  | cons c cs ih =>
    rw [List.map_cons, List.nodup_cons] at hnodup
    by_cases hc : p c
    · have hnone : cs.filter p = [] := by
        refine List.filter_eq_nil_iff.2 fun d hd hp => hnodup.1 ?_
        rw [hone c (List.mem_cons_self ..) d (List.mem_cons_of_mem _ hd) hc hp]
        exact List.mem_map_of_mem hd
      rw [List.find?_cons_of_pos hc, List.filter_cons_of_pos hc, hnone]
      rfl
    · rw [List.find?_cons_of_neg hc, List.filter_cons_of_neg hc]
      exact ih hnodup.2 fun a ha b hb =>
        hone a (List.mem_cons_of_mem _ ha) b (List.mem_cons_of_mem _ hb)

/-- A label in lower case is one that is the same ignoring case only if it is that one. -/
theorem Trie.Tidy.same_inj {cs : List (String × Trie)} (h : (Trie.node cs).Tidy) {name : String} :
    ∀ c ∈ cs, ∀ d ∈ cs, Text.sameIgnoringCase c.1 name → Text.sameIgnoringCase d.1 name →
      c.1 = d.1 := by
  obtain ⟨-, hlower, -⟩ := h
  intro c hc d hd hcn hdn
  simp only [Text.sameIgnoringCase, beq_iff_eq] at hcn hdn
  rw [← hlower c hc, ← hlower d hd, hcn, hdn]

theorem Trie.Tidy.find?_same {cs : List (String × Trie)} (h : (Trie.node cs).Tidy) (name : String) :
    (cs.find? fun c => Text.sameIgnoringCase c.1 name).toList =
      cs.filter fun c => Text.sameIgnoringCase c.1 name := by
  obtain ⟨hnodup, -, -⟩ := id h
  exact find?_toList_eq_filter hnodup h.same_inj

/-- Without wildcards there is no child below one. -/
theorem Trie.Tidy.child?_wildcard {cs : List (String × Trie)} (h : (Trie.node cs).Tidy)
    (hnone : ∀ c ∈ cs, isWildcard c.1 = false) {k : String} (hk : k = anyElement ∨ k = anyProperty) :
    (Trie.node cs).child? k = none := by
  obtain ⟨-, hlower, -⟩ := h
  have hlow : Text.lower k = k := by rcases hk with rfl | rfl <;> decide
  rw [child?, Option.map_eq_none_iff, List.find?_eq_none]
  intro c hc hsame
  simp only [Text.sameIgnoringCase, beq_iff_eq, hlow, hlower c hc] at hsame
  have := hnone c hc
  rw [hsame] at this
  rcases hk with rfl | rfl <;> simp [isWildcard] at this

theorem Trie.named_eq_children {cs : List (String × Trie)} (hnone : ∀ c ∈ cs, isWildcard c.1 = false) :
    (Trie.node cs).named = cs := by
  refine List.filter_eq_self.2 fun c hc => ?_
  have := hnone c hc
  simp only [isWildcard, Bool.or_eq_false_iff, decide_eq_false_iff_not] at this
  simp [this]

/-- A link leads to the children whose labels accept it. -/
theorem Link.follow_eq {l : Link} (hl : ∀ name, l ≠ .root name) {cs : List (String × Trie)}
    (htidy : (Trie.node cs).Tidy) (hlone : (Trie.node cs).LoneWildcards) (path : String) :
    l.follow ⟨.node cs, path⟩ = (cs.filter fun c => l.accepts c.1).map fun c =>
      ⟨c.2, path ++ "." ++ l.shown c.1⟩ := by
  have hwild := Trie.anyElement_ne_anyProperty
  rcases hlone.alone_or_none with ⟨t, rfl⟩ | ⟨t, rfl⟩ | hnone
  · cases l with
    | root name => exact absurd rfl (hl name)
    | property name | computed | filter =>
      simp [follow, accepts, shown, Reached.property?, Reached.element?, Reached.filtered, Trie.named,
        Trie.child?, Trie.children, Trie.isWildcard, Text.sameIgnoringCase, hwild,
        Trie.lower_anyElement, Trie.lower_anyProperty]
  · cases l with
    | root name => exact absurd rfl (hl name)
    | property name | computed | filter =>
      simp [follow, accepts, shown, Reached.property?, Reached.element?, Reached.filtered, Trie.named,
        Trie.child?, Trie.children, Trie.isWildcard, Text.sameIgnoringCase, hwild.symm,
        Trie.lower_anyElement, Trie.lower_anyProperty]
  · have hne : ∀ c ∈ cs, c.1 ≠ Trie.anyProperty := by
      intro c hc
      have := hnone c hc
      simp only [Trie.isWildcard, Bool.or_eq_false_iff, decide_eq_false_iff_not] at this
      exact this.2
    have helement := htidy.child?_wildcard hnone (Or.inl rfl)
    have hproperty := htidy.child?_wildcard hnone (Or.inr rfl)
    cases l with
    | root name => exact absurd rfl (hl name)
    | property name =>
      have hfilter : (cs.filter fun c => (property name).accepts c.1) =
          cs.filter fun c => Text.sameIgnoringCase c.1 name :=
        List.filter_congr fun c hc => by simp [accepts, hne c hc, hnone c hc]
      rw [hfilter, ← htidy.find?_same name, follow, Reached.property?, Trie.named_eq_children hnone,
        hproperty]
      cases hfind : cs.find? fun c => Text.sameIgnoringCase c.1 name with
      | none => rfl
      | some c => simp [shown, hne c (List.mem_of_find?_eq_some hfind)]
    | computed =>
      have hfilter : (cs.filter fun c => computed.accepts c.1) = [] :=
        List.filter_eq_nil_iff.2 fun c hc => by simp [accepts, hnone c hc]
      rw [hfilter, follow, Reached.element?, helement, hproperty]
      rfl
    | filter =>
      have hfilter : (cs.filter fun c => filter.accepts c.1) = cs :=
        List.filter_eq_self.2 fun c hc => by simp [accepts, hne c hc]
      rw [hfilter, follow, Reached.filtered, helement, Trie.named_eq_children hnone]
      rfl

/-! ### The root -/

/-- No name in lower case is a wildcard. -/
theorem Lexeme.IsName.lower_not_wildcard {name : String} (h : Lexeme.IsName name.toList) :
    Trie.isWildcard (Text.lower name) = false := by
  obtain ⟨c, cs, hname⟩ : ∃ c cs, name.toList = c :: cs := by
    cases hlist : name.toList with
    | nil => rw [hlist] at h; exact h.elim
    | cons c cs => exact ⟨c, cs, rfl⟩
  rw [hname] at h
  have hstar : c.toLower ≠ '*' := by
    intro he
    have hnat := Text.toNat_toLower c
    rw [he, show '*'.toNat = 42 from rfl] at hnat
    split at hnat
    · omega
    · obtain rfl : c = '*' := Char.toNat_inj.1 hnat.symm
      exact absurd h.1 (by decide)
  rw [Trie.isWildcard, Bool.or_eq_false_iff, decide_eq_false_iff_not, decide_eq_false_iff_not]
  constructor <;>
  · intro he
    have := congrArg (·.toList.head?) he
    simp only [Text.lower, String.toList_ofList, hname, List.map_cons, List.head?_cons] at this
    exact hstar (Option.some.inj this)

/-- A variable leads to the children whose labels accept it. -/
theorem reach_var {cs : List (String × Trie)} (htidy : (Trie.node cs).Tidy) {name : String}
    (hname : Lexeme.IsName name.toList) (o : Origin) : reach (.node cs) (.var o name) =
      (cs.filter fun c => (Link.root name).accepts c.1).map fun c => ⟨c.2, c.1⟩ := by
  have hlower : ∀ c ∈ cs, Text.sameIgnoringCase c.1 name → c.1 = Text.lower name := by
    obtain ⟨-, hlower, -⟩ := htidy
    intro c hc hsame
    rw [← hlower c hc]
    simpa [Text.sameIgnoringCase] using hsame
  have hfilter : (cs.filter fun c => (Link.root name).accepts c.1) =
      cs.filter fun c => Text.sameIgnoringCase c.1 name := by
    refine List.filter_congr fun c hc => ?_
    rw [Link.accepts, Bool.and_eq_right_iff_imp]
    intro hsame
    rw [hlower c hc hsame, hname.lower_not_wildcard]
    rfl
  rw [hfilter, ← htidy.find?_same name, reach, Trie.child?, Trie.children]
  cases hfind : cs.find? fun c => Text.sameIgnoringCase c.1 name with
  | none => rfl
  | some c =>
    have hsame : Text.sameIgnoringCase c.1 name := List.find?_some (a := c) hfind
    have hc := hlower c (List.mem_of_find?_eq_some hfind) hsame
    simp [hc]

/-! ### Whole chains -/

/-- What the links lead to, one after the other. -/
def followAll (links : List Link) (rs : List Reached) : List Reached :=
  links.foldl (fun rs l => rs.flatMap l.follow) rs

theorem followAll_append (links : List Link) (l : Link) (rs : List Reached) :
    followAll (links ++ [l]) rs = (followAll links rs).flatMap l.follow := by
  rw [followAll, List.foldl_append]
  rfl

/-- The links are a root and more, and the chain leads where they lead from the root. -/
def Leads (t : Trie) (e : Expr) (links : List Link) : Prop :=
  ∃ name ls, links = .root name :: ls ∧ (∀ l ∈ ls, ∀ n, l ≠ .root n) ∧
    reach t e = followAll ls (reach t (.var .start name))

theorem Leads.append {t : Trie} {e e' : Expr} {links : List Link} (h : Leads t e links) {l : Link}
    (hl : ∀ n, l ≠ .root n) (hreach : reach t e' = (reach t e).flatMap l.follow) :
    Leads t e' (links ++ [l]) := by
  obtain ⟨name, ls, rfl, hls, he⟩ := h
  refine ⟨name, ls ++ [l], rfl, fun l' hl' => ?_, by rw [hreach, he, followAll_append]⟩
  rcases List.mem_append.1 hl' with hl' | hl'
  · exact hls l' hl'
  · rw [List.mem_singleton.1 hl']
    exact hl

theorem leads_of_links? (t : Trie) {e : Expr} {links : List Link} (h : e.links? = some links) :
    Leads t e links := by
  fun_induction Expr.links? e generalizing links with
  | case1 o name =>
    cases h
    exact ⟨name, [], rfl, by simp, rfl⟩
  | case2 o r name ih =>
    obtain ⟨ls, hls, rfl⟩ := Option.map_eq_some_iff.1 h
    exact (ih hls).append (by simp) (List.filterMap_eq_flatMap_toList ..)
  | case3 o e o' name ih =>
    obtain ⟨ls, hls, rfl⟩ := Option.map_eq_some_iff.1 h
    exact (ih hls).append (by simp) (List.filterMap_eq_flatMap_toList ..)
  | case4 o e k hk ih =>
    obtain ⟨ls, hls, rfl⟩ := Option.map_eq_some_iff.1 h
    refine (ih hls).append (by simp) ?_
    rw [reach]
    · exact List.filterMap_eq_flatMap_toList ..
    · exact hk
  | case5 o r ih =>
    obtain ⟨ls, hls, rfl⟩ := Option.map_eq_some_iff.1 h
    exact (ih hls).append (by simp) rfl
  | case6 | case7 | case8 | case9 => cases h

theorem accepts_nil {ks : List String} : Accepts [] ks ↔ ks = [] :=
  List.forall₂_nil_left_iff

theorem accepts_cons {l : Link} {ls : List Link} {k : String} {ks : List String} :
    Accepts (l :: ls) (k :: ks) ↔ l.accepts k ∧ Accepts ls ks :=
  List.forall₂_cons

theorem not_accepts_nil {l : Link} {ls : List Link} : ¬Accepts (l :: ls) [] :=
  fun h => nomatch h

/-- The paths to the leaves below a node that accept a chain, by its first link. -/
theorem map_filter_ends {cs : List (String × Trie)} {l : Link} {ls : List Link}
    (f : List String → String) :
    ((Trie.node cs).ends.filter (Accepts (l :: ls) ·)).map f =
      (cs.filter fun c => l.accepts c.1).flatMap fun c =>
        (c.2.ends.filter (Accepts ls ·)).map fun ks => f (c.1 :: ks) := by
  have hall : ∀ ds : List (String × Trie),
      ((ds.flatMap fun d => d.2.ends.map (d.1 :: ·)).filter (Accepts (l :: ls) ·)).map f =
        (ds.filter fun d => l.accepts d.1).flatMap fun d =>
          (d.2.ends.filter (Accepts ls ·)).map fun ks => f (d.1 :: ks) := by
    intro ds
    induction ds with
    | nil => rfl
    | cons d ds ih =>
      rw [List.flatMap_cons, List.filter_append, List.map_append, ih, List.filter_map, List.map_map]
      by_cases hd : l.accepts d.1
      · rw [List.filter_cons_of_pos (a := d) hd, List.flatMap_cons]
        congr 2
        exact List.filter_congr fun ks _ => by simp [accepts_cons, hd]
      · rw [List.filter_cons_of_neg (a := d) hd, List.filter_eq_nil_iff.2, List.map_nil, List.nil_append]
        intro ks _
        simp [accepts_cons, hd]
  cases cs with
  | nil =>
    rw [Trie.ends_nil, List.filter_cons_of_neg (by simpa using not_accepts_nil)]
    rfl
  | cons c cs =>
    rw [Trie.ends_cons]
    exact hall (c :: cs)

/-- The paths that arrive at a leaf. -/
def arrivals (rs : List Reached) : List String :=
  (rs.filter (·.trie.isLeaf)).map (·.path)

/-- A path and the pieces after it, with dots between them. -/
def extended (path : String) (pieces : List String) : String :=
  pieces.foldl (fun path piece => path ++ "." ++ piece) path

theorem intercalate_cons (piece : String) (pieces : List String) :
    ".".intercalate (piece :: pieces) = extended piece pieces := by
  rw [String.intercalate, extended]
  induction pieces generalizing piece with
  | nil => rfl
  | cons p ps ih => exact ih _

/-- The paths below what was reached that accept the links. -/
def Reached.accepted (ls : List Link) (r : Reached) : List String :=
  (r.trie.ends.filter (Accepts ls ·)).map fun ks => extended r.path (List.zipWith Link.shown ls ks)

theorem arrivals_eq_accepted (rs : List Reached) :
    arrivals rs = rs.flatMap (Reached.accepted []) := by
  induction rs with
  | nil => rfl
  | cons r rs ih =>
    obtain ⟨⟨cs⟩, path⟩ := r
    rw [List.flatMap_cons, ← ih, arrivals, Reached.accepted]
    simp only [accepts_nil]
    cases cs with
    | nil =>
      rw [Trie.ends_nil]
      rfl
    | cons c cs =>
      have hnone : (Trie.node (c :: cs)).ends.filter (· = []) = [] := by
        refine List.filter_eq_nil_iff.2 fun ks hks hnil => ?_
        rw [of_decide_eq_true hnil, Trie.nil_mem_ends] at hks
        cases hks
      rw [hnone]
      rfl

/-- Following links arrives at the ends of the paths that accept them. -/
theorem arrivals_followAll {ls : List Link} (hls : ∀ l ∈ ls, ∀ n, l ≠ .root n) {rs : List Reached}
    (hrs : ∀ r ∈ rs, r.trie.Tidy ∧ r.trie.LoneWildcards) :
    arrivals (followAll ls rs) = rs.flatMap (Reached.accepted ls) := by
  induction ls generalizing rs with
  | nil => exact arrivals_eq_accepted rs
  | cons l ls ih =>
    have hl := hls l (List.mem_cons_self ..)
    have hstep : ∀ r ∈ rs, (l.follow r).flatMap (Reached.accepted ls) = r.accepted (l :: ls) := by
      rintro ⟨⟨cs⟩, path⟩ hr
      obtain ⟨htidy, hlone⟩ := hrs _ hr
      rw [Link.follow_eq hl htidy hlone, List.flatMap_map, Reached.accepted, map_filter_ends]
      rfl
    have hnext : ∀ r ∈ rs.flatMap l.follow, r.trie.Tidy ∧ r.trie.LoneWildcards := by
      intro r' hr'
      obtain ⟨⟨⟨cs⟩, path⟩, hr, hr'⟩ := List.mem_flatMap.1 hr'
      obtain ⟨htidy, hlone⟩ := hrs _ hr
      rw [Link.follow_eq hl htidy hlone] at hr'
      obtain ⟨c, hc, rfl⟩ := List.mem_map.1 hr'
      obtain ⟨-, -, htidy⟩ := htidy
      obtain ⟨-, hlone⟩ := hlone
      exact ⟨htidy c (List.mem_of_mem_filter hc), hlone c (List.mem_of_mem_filter hc)⟩
    rw [followAll, List.foldl_cons, ← followAll, ih (fun l' hl' => hls l' (List.mem_cons_of_mem _ hl'))
      hnext, List.flatMap_assoc]
    exact List.flatMap_congr hstep

/-- A chain arrives at the ends of the paths that accept it, the root included. -/
theorem arrivals_reach {t : Trie} (htidy : t.Tidy) (hlone : t.LoneWildcards) {e : Expr} {name : String}
    {ls : List Link} (he : e.links? = some (.root name :: ls)) (hname : Lexeme.IsName name.toList) :
    arrivals (reach t e) =
      (t.ends.filter (Accepts (.root name :: ls) ·)).map (reported (.root name :: ls)) := by
  obtain ⟨name', ls', heq, hls, hreach⟩ := leads_of_links? t he
  cases heq
  obtain ⟨cs⟩ := t
  have hnext : ∀ r ∈ reach (.node cs) (.var .start name), r.trie.Tidy ∧ r.trie.LoneWildcards := by
    intro r hr
    rw [reach_var htidy hname] at hr
    obtain ⟨c, hc, rfl⟩ := List.mem_map.1 hr
    obtain ⟨-, -, htidy⟩ := htidy
    obtain ⟨-, hlone⟩ := hlone
    exact ⟨htidy c (List.mem_of_mem_filter hc), hlone c (List.mem_of_mem_filter hc)⟩
  rw [hreach, arrivals_followAll hls hnext, reach_var htidy hname, List.flatMap_map, map_filter_ends]
  refine List.flatMap_congr fun c _ => List.map_congr_left fun ks _ => ?_
  rw [reported, List.zipWith_cons_cons, intercalate_cons]
  rfl

/-! ### Different paths are shown differently -/

theorem toList_extended (path : String) (pieces : List String) : (extended path pieces).toList =
    path.toList ++ pieces.flatMap fun piece => '.' :: piece.toList := by
  induction pieces generalizing path with
  | nil => simp [extended]
  | cons p ps ih =>
    rw [extended, List.foldl_cons, ← extended, ih, List.flatMap_cons]
    simp

/-- Labels without dots can be read off what is shown. -/
theorem label_eq_of_extended {path k k' : String} {ps ps' : List String} (hk : '.' ∉ k.toList)
    (hk' : '.' ∉ k'.toList)
    (h : extended (path ++ "." ++ k) ps = extended (path ++ "." ++ k') ps') : k = k' := by
  have htail : ∀ (l : String) (qs : List String), '.' ∉ l.toList →
      (l.toList ++ qs.flatMap fun piece => '.' :: piece.toList).takeWhile (· ≠ '.') = l.toList := by
    intro l qs hl
    rw [List.takeWhile_append_of_pos]
    · cases qs <;> simp
    · intro c hc
      rw [decide_eq_true_eq]
      rintro rfl
      exact hl hc
  have hlist := congrArg String.toList h
  simp only [toList_extended, String.toList_append, List.append_assoc, List.append_cancel_left_eq]
    at hlist
  have := congrArg (List.takeWhile (· ≠ '.')) hlist
  rw [htail k ps hk, htail k' ps' hk'] at this
  exact String.toList_inj.1 this

theorem Link.shown_of_name {l : Link} {k : String} (ha : l.accepts k)
    (hk : Trie.isWildcard k = false) : l.shown k = k := by
  cases l with
  | root name => rfl
  | property name =>
    simp only [Trie.isWildcard, Bool.or_eq_false_iff, decide_eq_false_iff_not] at hk
    rw [shown, if_neg hk.2]
  | computed =>
    rw [accepts, hk] at ha
    cases ha
  | filter => rfl

/-- Two labels of one node are names. -/
theorem Trie.LoneWildcards.not_wildcard {cs : List (String × Trie)} (h : (Trie.node cs).LoneWildcards)
    {c d : String × Trie} (hc : c ∈ cs) (hd : d ∈ cs) (hne : c.1 ≠ d.1) : isWildcard c.1 = false := by
  obtain ⟨halone, -⟩ := h
  rw [Bool.eq_false_iff]
  intro hwild
  rw [halone c hc hwild, List.mem_singleton] at hd
  exact hne (congrArg Prod.fst hd.symm)

/-- Below one node, labels that accept the same links and are shown alike are the same. -/
theorem labels_eq_of_extended {t : Trie} (htidy : t.Tidy) (hlone : t.LoneWildcards) {ls : List Link}
    {ks ks' : List String} (hdots : ∀ ks ∈ t.ends, ∀ k ∈ ks, '.' ∉ k.toList) (hks : ks ∈ t.ends)
    (hks' : ks' ∈ t.ends) (ha : Accepts ls ks) (ha' : Accepts ls ks') {path : String}
    (h : extended path (List.zipWith Link.shown ls ks) =
      extended path (List.zipWith Link.shown ls ks')) : ks = ks' := by
  induction ls generalizing t ks ks' path with
  | nil => rw [accepts_nil.1 ha, accepts_nil.1 ha']
  | cons l ls ih =>
    obtain ⟨k, ks, hl, hls, rfl⟩ := List.forall₂_cons_left_iff.1 ha
    obtain ⟨k', ks', hl', hls', rfl⟩ := List.forall₂_cons_left_iff.1 ha'
    obtain ⟨cs⟩ := t
    obtain ⟨c, hc, rfl, hends⟩ := Trie.cons_mem_ends.1 hks
    obtain ⟨c', hc', rfl, hends'⟩ := Trie.cons_mem_ends.1 hks'
    rw [List.zipWith_cons_cons, List.zipWith_cons_cons] at h
    by_cases hk : c.1 = c'.1
    · obtain rfl := htidy.children_inj hc hc' hk
      obtain ⟨-, -, htidy⟩ := htidy
      obtain ⟨-, hlone⟩ := hlone
      have hbelow : ∀ ks ∈ c.2.ends, ∀ k ∈ ks, '.' ∉ k.toList := fun ks hmem k hin =>
        hdots _ (Trie.cons_mem_ends.2 ⟨c, hc, rfl, hmem⟩) k (List.mem_cons_of_mem _ hin)
      rw [ih (htidy c hc) (hlone c hc) hbelow hends hends' hls hls' h]
    -- labels that part here are names, and names are shown as they are
    · rw [Link.shown_of_name hl (hlone.not_wildcard hc hc' hk),
        Link.shown_of_name hl' (hlone.not_wildcard hc' hc (Ne.symm hk))] at h
      exact absurd (label_eq_of_extended (hdots _ hks _ (List.mem_cons_self ..))
        (hdots _ hks' _ (List.mem_cons_self ..)) h) hk

/-- Labels that accept the same chain and are reported alike are the same. -/
theorem labels_eq_of_reported {t : Trie} (htidy : t.Tidy) (hlone : t.LoneWildcards) {name : String}
    {ls : List Link} {ks ks' : List String} (hdots : ∀ ks ∈ t.ends, ∀ k ∈ ks, '.' ∉ k.toList)
    (hks : ks ∈ t.ends) (hks' : ks' ∈ t.ends) (ha : Accepts (.root name :: ls) ks)
    (ha' : Accepts (.root name :: ls) ks')
    (h : reported (.root name :: ls) ks = reported (.root name :: ls) ks') : ks = ks' := by
  obtain ⟨k, ks, hl, hls, rfl⟩ := List.forall₂_cons_left_iff.1 ha
  obtain ⟨k', ks', hl', hls', rfl⟩ := List.forall₂_cons_left_iff.1 ha'
  obtain ⟨cs⟩ := t
  obtain ⟨c, hc, rfl, hends⟩ := Trie.cons_mem_ends.1 hks
  obtain ⟨c', hc', rfl, hends'⟩ := Trie.cons_mem_ends.1 hks'
  simp only [Link.accepts, Bool.and_eq_true] at hl hl'
  obtain rfl := htidy.children_inj hc hc' (htidy.same_inj c hc c' hc' hl.2 hl'.2)
  obtain ⟨-, -, htidy⟩ := htidy
  obtain ⟨-, hlone⟩ := hlone
  have hbelow : ∀ ks ∈ c.2.ends, ∀ k ∈ ks, '.' ∉ k.toList := fun ks hmem k hin =>
    hdots _ (Trie.cons_mem_ends.2 ⟨c, hc, rfl, hmem⟩) k (List.mem_cons_of_mem _ hin)
  rw [reported, reported, List.zipWith_cons_cons, List.zipWith_cons_cons, intercalate_cons,
    intercalate_cons] at h
  rw [labels_eq_of_extended (htidy c hc) (hlone c hc) hbelow hends hends' hls hls' h]

theorem Trie.not_dot_of_mem_labels {path k : String} (h : k ∈ labels path) : '.' ∉ k.toList := by
  obtain ⟨piece, hpiece, rfl⟩ := List.mem_map.1 h
  rw [Text.lower, String.toList_ofList]
  intro hdot
  obtain ⟨c, hc, hlow⟩ := List.mem_map.1 hdot
  have hnat := Text.toNat_toLower c
  rw [hlow, show '.'.toNat = 46 from rfl] at hnat
  split at hnat
  · omega
  · obtain rfl : c = '.' := Char.toNat_inj.1 hnat.symm
    exact Text.not_mem_of_mem_split hpiece hc

theorem Trie.not_dot_of_mem_ends {paths ks : List String} (h : PrefixFree paths)
    (hks : ks ∈ (ofPaths paths).ends) : ∀ k ∈ ks, '.' ∉ k.toList := by
  intro k hk
  obtain ⟨p, -, rfl⟩ := List.mem_map.1 ((mem_ends_ofPaths h (List.ne_nil_of_mem hk)).1 hks)
  exact not_dot_of_mem_labels hk

/-! ### The declared paths -/

/-- The ends of the tree that accept a chain are the declared paths that do. -/
theorem perm_ends_ofPaths {paths : List String} (h : Trie.PrefixFree paths) (l : Link) (ls : List Link) :
    ((Trie.ofPaths paths).ends.filter (Accepts (l :: ls) ·)).Perm
      ((paths.map Trie.labels).dedup.filter (Accepts (l :: ls) ·)) := by
  rw [List.perm_ext_iff_of_nodup ((Trie.nodup_ends (Trie.tidy_ofPaths paths)).filter _)
    ((List.nodup_dedup _).filter _)]
  intro ks
  rw [List.mem_filter, List.mem_filter, List.mem_dedup, and_congr_left_iff]
  intro ha
  refine Trie.mem_ends_ofPaths h ?_
  rintro rfl
  exact not_accepts_nil (of_decide_eq_true ha)

theorem judge_eq (t : Trie) (e : Expr) : judge t e =
    if arrivals (reach t e) = [] then [] else [(e.origin.offset, arrivals (reach t e))] := by
  rw [judge, ← arrivals]
  simp only [List.isEmpty_iff]

/-- The builtin paths can be told apart. For any paths that can be told apart, a chain that starts at a
    variable is reported exactly when a declared path accepts it link by link. The reported paths are
    the accepting ones, each once, as the chain shows them. -/
theorem chain_reported_iff_declared_path_accepts :
    Trie.Separable untrustedPaths ∧
    ∀ paths : List String, Trie.Separable paths →
    ∀ (e : Expr) (name : String) (ls : List Link), e.links? = some (.root name :: ls) →
    Lexeme.IsName name.toList →
    ∃ found : List String,
      exprTaints (.ofPaths paths) e = innerTaints (.ofPaths paths) e ++
        (if found = [] then [] else [(e.origin.offset, found)]) ∧
      (found ≠ [] ↔ ∃ path ∈ paths, Accepts (.root name :: ls) (Trie.labels path)) ∧
      found.Nodup ∧
      found.Perm (((paths.map Trie.labels).dedup.filter (Accepts (.root name :: ls) ·)).map
        (reported (.root name :: ls))) := by
  refine ⟨Trie.separable_untrustedPaths, fun paths hsep e name ls he hname => ?_⟩
  have htidy := Trie.tidy_ofPaths paths
  have hfound := arrivals_reach htidy hsep.loneWildcards he hname
  have hperm := (perm_ends_ofPaths hsep.prefixFree (.root name) ls).map (reported (.root name :: ls))
  rw [← hfound] at hperm
  refine ⟨arrivals (reach (.ofPaths paths) e), ?_, ?_, ?_, hperm⟩
  · rw [exprTaints, judge_eq]
  · rw [Ne, ← List.length_eq_zero_iff, hperm.length_eq, List.length_map, List.length_eq_zero_iff,
      List.filter_eq_nil_iff]
    simp
  · rw [hfound]
    refine ((Trie.nodup_ends htidy).filter _).map_on fun ks hks ks' hks' hsame => ?_
    rw [List.mem_filter, decide_eq_true_eq] at hks hks'
    exact labels_eq_of_reported htidy hsep.loneWildcards
      (fun ks hks => Trie.not_dot_of_mem_ends hsep.prefixFree hks) hks.1 hks'.1 hks.2 hks'.2 hsame

/-- `A.*['p.q']` against paths that differ in their second label. -/
theorem chain_reported_at_filter :
    Trie.Separable ["A.x.**", "a.Y.**", "b.*.c"] ∧
    ∃ found : List String,
      exprTaints (.ofPaths ["A.x.**", "a.Y.**", "b.*.c"])
        (.index .start (.filter .start (.var .start "A")) (.literal .start (.string "p.q"))) =
        innerTaints (.ofPaths ["A.x.**", "a.Y.**", "b.*.c"])
          (.index .start (.filter .start (.var .start "A")) (.literal .start (.string "p.q"))) ++
        (if found = [] then [] else [(0, found)]) ∧
      (found ≠ [] ↔ ∃ path ∈ ["A.x.**", "a.Y.**", "b.*.c"],
        Accepts [.root "A", .filter, .property "p.q"] (Trie.labels path)) ∧
      found.Nodup ∧
      found.Perm (((["A.x.**", "a.Y.**", "b.*.c"].map Trie.labels).dedup.filter
        (Accepts [.root "A", .filter, .property "p.q"] ·)).map
          (reported [.root "A", .filter, .property "p.q"])) := by
  have hsep : Trie.Separable ["A.x.**", "a.Y.**", "b.*.c"] := Trie.separable_of_apart (by cbv)
  exact ⟨hsep, chain_reported_iff_declared_path_accepts.2 _ hsep _ "A" [.filter, .property "p.q"] rfl
    (by decide)⟩

end WorkflowAudit
