import WorkflowAudit.Proofs.Taint.ContextPath
import WorkflowAudit.Rule.BotCheck

/-!
Names in another case. The same expression, with its names in another case, leads to the same untrusted
trees along paths that are the same but for case, and compares actors with bots in the same places. Main
statement: expressions that are the same have the same taints but for case, and the same bot checks.
-/

namespace WorkflowAudit

namespace Expr

/-- The expressions have the same shape, origins and operators, and names that are the same but for case. -/
inductive Alike : Expr → Expr → Prop
  | literal {o : Origin} {v w : Literal} : v.same w → Alike (.literal o v) (.literal o w)
  | var {o : Origin} {x y : String} : Text.sameIgnoringCase x y → Alike (.var o x) (.var o y)
  | property {o : Origin} {r s : Expr} {x y : String} : Alike r s → Text.sameIgnoringCase x y →
      Alike (.property o r x) (.property o s y)
  | filter {o : Origin} {r s : Expr} : Alike r s → Alike (.filter o r) (.filter o s)
  | index {o : Origin} {r s k l : Expr} : Alike r s → Alike k l → Alike (.index o r k) (.index o s l)
  | call {o : Origin} {f g : String} {xs ys : List Expr} : Text.sameIgnoringCase f g →
      xs.length = ys.length → (∀ i hx hy, Alike (xs.get ⟨i, hx⟩) (ys.get ⟨i, hy⟩)) →
      Alike (.call o f xs) (.call o g ys)
  | binary {o : Origin} {op : BinaryOp} {l m r s : Expr} : Alike l m → Alike r s →
      Alike (.binary o op l r) (.binary o op m s)
  | not {o : Origin} {e f : Expr} : Alike e f → Alike (.not o e) (.not o f)

theorem same_iff {a b : Expr} : a.same b ↔ a.origin = b.origin ∧ a.sameNode b := by
  rw [same, Bool.and_eq_true, beq_iff_eq]

mutual

theorem alike_of_sameNode : ∀ {a b : Expr}, a.origin = b.origin → a.sameNode b → Alike a b
  | .literal o v, b, ho, h => by
    cases b <;> simp only [sameNode, Bool.false_eq_true] at h
    cases ho
    exact .literal h
  | .var o x, b, ho, h => by
    cases b <;> simp only [sameNode, Bool.false_eq_true] at h
    cases ho
    exact .var h
  | .property o r x, b, ho, h => by
    cases b <;> simp only [sameNode, Bool.and_eq_true, same_iff, Bool.false_eq_true] at h
    cases ho
    exact .property (alike_of_sameNode h.1.1 h.1.2) h.2
  | .filter o r, b, ho, h => by
    cases b <;> simp only [sameNode, same_iff, Bool.false_eq_true] at h
    cases ho
    exact .filter (alike_of_sameNode h.1 h.2)
  | .index o r k, b, ho, h => by
    cases b <;> simp only [sameNode, Bool.and_eq_true, same_iff, Bool.false_eq_true] at h
    cases ho
    exact .index (alike_of_sameNode h.1.1 h.1.2) (alike_of_sameNode h.2.1 h.2.2)
  | .call o f xs, b, ho, h => by
    cases b <;> simp only [sameNode, Bool.and_eq_true, Bool.false_eq_true] at h
    cases ho
    obtain ⟨hlength, hget⟩ := List.forall₂_iff_get.1 (alike_of_sameAll h.2)
    exact .call h.1 hlength hget
  | .binary o op l r, b, ho, h => by
    cases b <;> simp only [sameNode, Bool.and_eq_true, same_iff, beq_iff_eq, Bool.false_eq_true] at h
    cases ho
    obtain ⟨⟨rfl, hl⟩, hr⟩ := h
    exact .binary (alike_of_sameNode hl.1 hl.2) (alike_of_sameNode hr.1 hr.2)
  | .not o e, b, ho, h => by
    cases b <;> simp only [sameNode, same_iff, Bool.false_eq_true] at h
    cases ho
    exact .not (alike_of_sameNode h.1 h.2)

theorem alike_of_sameAll : ∀ {xs ys : List Expr}, sameAll xs ys → List.Forall₂ Alike xs ys
  | [], [], _ => .nil
  | x :: xs, y :: ys, h => by
    rw [sameAll, Bool.and_eq_true, same_iff] at h
    exact .cons (alike_of_sameNode h.1.1 h.1.2) (alike_of_sameAll h.2)
  | [], y :: ys, h | x :: xs, [], h => by simp [sameAll] at h

end

namespace Alike

variable {a b : Expr}

theorem of_same (h : a.same b) : Alike a b :=
  alike_of_sameNode (same_iff.1 h).1 (same_iff.1 h).2

theorem origin_eq (h : Alike a b) : a.origin = b.origin := by
  cases h <;> rfl

/-- An index that is a string is the same string in both; else it is a string in neither. -/
theorem string_or_not (h : Alike a b) :
    (∃ o s, a = .literal o (.string s) ∧ b = .literal o (.string s)) ∨
      (∀ o s, a ≠ .literal o (.string s)) ∧ ∀ o s, b ≠ .literal o (.string s) := by
  cases h with
  | @literal o v w hvw =>
    cases v <;> cases w <;> simp_all [Literal.same]
  | var | property | filter | index | call | binary | not => exact Or.inr ⟨by simp, by simp⟩

end Alike

end Expr

/-! ### Taints -/

namespace Trie

/-- Labels that are the same but for case lead to the same tree. -/
theorem child?_congr (t : Trie) {x y : String} (h : Text.sameIgnoringCase x y) :
    t.child? x = t.child? y := by
  rw [Text.sameIgnoringCase_iff] at h
  simp only [child?, Text.sameIgnoringCase, h]

end Trie

namespace Reached

/-- The same tree along paths that are the same but for case. -/
structure Alike (r s : Reached) : Prop where
  trie : r.trie = s.trie
  path : Text.sameIgnoringCase r.path s.path

variable {r s : Reached}

theorem Alike.property? (h : r.Alike s) {x y : String} (hxy : Text.sameIgnoringCase x y) :
    Option.Rel Alike (r.property? x) (s.property? y) := by
  have hfind : (r.trie.named.find? fun c => Text.sameIgnoringCase c.1 x) =
      s.trie.named.find? fun c => Text.sameIgnoringCase c.1 y := by
    rw [h.trie]
    simp only [Text.sameIgnoringCase, Text.sameIgnoringCase_iff.1 hxy]
  rw [Reached.property?, Reached.property?, hfind, h.trie]
  cases s.trie.named.find? fun c => Text.sameIgnoringCase c.1 y with
  | some c => exact .some ⟨rfl, Text.sameIgnoringCase_dotted h.path (Text.sameIgnoringCase_refl c.1)⟩
  | none =>
    cases s.trie.child? Trie.anyProperty with
    | none => exact .none
    | some t => exact .some ⟨rfl, Text.sameIgnoringCase_dotted h.path hxy⟩

theorem Alike.element? (h : r.Alike s) : Option.Rel Alike r.element? s.element? := by
  rw [Reached.element?, Reached.element?, h.trie]
  cases (s.trie.child? Trie.anyElement).or (s.trie.child? Trie.anyProperty) with
  | none => exact .none
  | some t => exact .some ⟨rfl, Text.sameIgnoringCase_dotted h.path (Text.sameIgnoringCase_refl _)⟩

theorem Alike.filtered (h : r.Alike s) : List.Forall₂ Alike r.filtered s.filtered := by
  rw [Reached.filtered, Reached.filtered, h.trie]
  cases s.trie.child? Trie.anyElement with
  | some t =>
    exact .cons ⟨rfl, Text.sameIgnoringCase_dotted h.path (Text.sameIgnoringCase_refl _)⟩ .nil
  | none =>
    rw [List.forall₂_map_left_iff, List.forall₂_map_right_iff, List.forall₂_same]
    exact fun c _ => ⟨rfl, Text.sameIgnoringCase_dotted h.path (Text.sameIgnoringCase_refl c.1)⟩

end Reached

/-- Chains that are alike lead to the same trees. -/
theorem forall₂_reach (t : Trie) {a b : Expr} (h : a.Alike b) :
    List.Forall₂ Reached.Alike (reach t a) (reach t b) := by
  induction h with
  | literal | call | binary | not => exact .nil
  | @var o x y hxy =>
    rw [reach, reach, t.child?_congr hxy, Text.sameIgnoringCase_iff.1 hxy]
    cases t.child? y with
    | none => exact .nil
    | some below => exact .cons ⟨rfl, Text.sameIgnoringCase_refl _⟩ .nil
  | property _ hxy ih => exact List.rel_filterMap (fun _ _ hrs => hrs.property? hxy) ih
  | filter _ ih => exact List.rel_flatMap ih fun _ _ hrs => hrs.filtered
  | @index o r s k l _ hkl ihr _ =>
    rcases hkl.string_or_not with ⟨o', x, rfl, rfl⟩ | ⟨hk, hl⟩
    · exact List.rel_filterMap (fun _ _ hrs => hrs.property? (Text.sameIgnoringCase_refl x)) ihr
    · rw [reach, reach]
      · exact List.rel_filterMap (fun _ _ hrs => hrs.element?) ihr
      · exact hl
      · exact hk

/-- The same offset, and paths that are the same but for case. -/
def SameTaint (x y : Nat × List String) : Prop :=
  x.1 = y.1 ∧ List.Forall₂ (fun p q => Text.sameIgnoringCase p q) x.2 y.2

theorem forall₂_judge (t : Trie) {a b : Expr} (h : a.Alike b) :
    List.Forall₂ SameTaint (judge t a) (judge t b) := by
  have hpaths : List.Forall₂ (fun p q => Text.sameIgnoringCase p q) (arrivals (reach t a))
      (arrivals (reach t b)) := by
    refine List.rel_map (fun _ _ hrs => hrs.path) (List.rel_filter ?_ (forall₂_reach t h))
    intro r s hrs
    simp only [hrs.trie]
  rw [judge_eq, judge_eq, h.origin_eq]
  by_cases hnil : arrivals (reach t a) = []
  · rw [hnil] at hpaths
    rw [if_pos hnil, if_pos (List.forall₂_nil_left_iff.1 hpaths)]
    exact .nil
  · have hnil' : arrivals (reach t b) ≠ [] := by
      intro heq
      rw [heq] at hpaths
      exact hnil (List.forall₂_nil_right_iff.1 hpaths)
    rw [if_neg hnil, if_neg hnil']
    exact .cons ⟨rfl, hpaths⟩ .nil

theorem argumentTaints_eq_flatMap (t : Trie) (es : List Expr) :
    argumentTaints t es = es.flatMap (exprTaints t) := by
  induction es with
  | nil => rfl
  | cons e es ih => rw [argumentTaints, ih, List.flatMap_cons, exprTaints]

theorem forall₂_innerTaints (t : Trie) {a b : Expr} (h : a.Alike b) :
    List.Forall₂ SameTaint (innerTaints t a) (innerTaints t b) := by
  induction h with
  | literal | var => exact .nil
  | property _ _ ih | filter _ ih => exact ih
  | index _ hk ihr ihk => exact List.rel_append ihr (List.rel_append ihk (forall₂_judge t hk))
  | @call o f g xs ys _ hlength hargs ih =>
    rw [innerTaints, innerTaints, argumentTaints_eq_flatMap, argumentTaints_eq_flatMap]
    refine List.rel_flatMap (R := fun x y => x.Alike y ∧
      List.Forall₂ SameTaint (innerTaints t x) (innerTaints t y)) ?_ ?_
    · exact List.forall₂_iff_get.2 ⟨hlength, fun i hx hy => ⟨hargs i hx hy, ih i hx hy⟩⟩
    · exact fun _ _ hxy => List.rel_append hxy.2 (forall₂_judge t hxy.1)
  | binary hl hr ihl ihr =>
    exact List.rel_append (List.rel_append ihl (forall₂_judge t hl))
      (List.rel_append ihr (forall₂_judge t hr))
  | not he ih => exact List.rel_append ih (forall₂_judge t he)

/-! ### Bot checks -/

namespace Expr

theorem botChecksIn_eq_flatten (es : List Expr) : botChecksIn es = (es.map botChecks).flatten := by
  induction es with
  | nil => rfl
  | cons e es ih => rw [botChecksIn, ih, List.map_cons, List.flatten_cons]

/-- The bot checks of an expression are its own, then those of its parts. -/
theorem botChecks_eq_children (e : Expr) : e.botChecks =
    (if e.comparesBot then [e.origin.offset] else []) ++ (e.children.map botChecks).flatten := by
  cases e <;> simp [botChecks, children, botChecksIn_eq_flatten]

theorem isBotLogin_eq_false {e : Expr} (h : ∀ o s, e ≠ .literal o (.string s)) :
    e.isBotLogin = false := by
  unfold isBotLogin
  split
  · exact absurd rfl (h _ _)
  · rfl

/-- Lists that agree under a function one by one have the same image. -/
theorem map_eq_of_get {α : Type} {f : Expr → α} {xs ys : List Expr} (hlength : xs.length = ys.length)
    (h : ∀ i hx hy, f (xs.get ⟨i, hx⟩) = f (ys.get ⟨i, hy⟩)) : xs.map f = ys.map f := by
  rw [← List.forall₂_eq_eq_eq, List.forall₂_map_left_iff, List.forall₂_map_right_iff]
  exact List.forall₂_iff_get.2 ⟨hlength, h⟩

namespace Alike

variable {a b : Expr}

/-- The context paths of chains that are alike are the same but for case. -/
theorem contextPath? (h : Alike a b) :
    Option.Rel (fun p q => Text.sameIgnoringCase p q) a.contextPath? b.contextPath? := by
  have hmap : ∀ {p q : Option String} {x y : String},
      Option.Rel (fun p q => Text.sameIgnoringCase p q) p q → Text.sameIgnoringCase x y →
      Option.Rel (fun p q => Text.sameIgnoringCase p q) (p.map (· ++ "." ++ x)) (q.map (· ++ "." ++ y)) := by
    intro p q x y hpq hxy
    cases hpq with
    | none => exact .none
    | some hpq => exact .some (Text.sameIgnoringCase_dotted hpq hxy)
  have hstar : ∀ {p q : Option String}, Option.Rel (fun p q => Text.sameIgnoringCase p q) p q →
      Option.Rel (fun p q => Text.sameIgnoringCase p q) (p.map (· ++ ".*")) (q.map (· ++ ".*")) := by
    intro p q hpq
    simpa only [dotted_anyElement] using hmap hpq (Text.sameIgnoringCase_refl Trie.anyElement)
  induction h with
  | literal | call | binary | not => exact .none
  | var hxy => exact .some hxy
  | property _ hxy ih => exact hmap ih hxy
  | filter _ ih =>
    rw [Expr.contextPath?, Expr.contextPath?]
    exact hstar ih
  | @index o r s k l _ hkl ihr _ =>
    rcases hkl.string_or_not with ⟨o', x, rfl, rfl⟩ | ⟨hk, hl⟩
    · exact hmap ihr (Text.sameIgnoringCase_refl x)
    · rw [Expr.contextPath?, Expr.contextPath?]
      · exact hstar ihr
      · exact hl
      · exact hk

theorem isActor_eq (h : Alike a b) : a.isActor = b.isActor := by
  have hpath := h.contextPath?
  unfold isActor
  generalize a.contextPath? = p, b.contextPath? = q at hpath
  cases hpath with
  | none => rfl
  | some hpq => simp only [Text.sameIgnoringCase, Text.sameIgnoringCase_iff.1 hpq]

theorem isBotLogin_eq (h : Alike a b) : a.isBotLogin = b.isBotLogin := by
  rcases h.string_or_not with ⟨o, s, rfl, rfl⟩ | ⟨ha, hb⟩
  · rfl
  · rw [isBotLogin_eq_false ha, isBotLogin_eq_false hb]

theorem comparesBot_eq (h : Alike a b) : a.comparesBot = b.comparesBot := by
  cases h with
  | literal | var | property | filter | index | not => rfl
  | binary hl hr =>
    rw [comparesBot, comparesBot, hl.isActor_eq, hl.isBotLogin_eq, hr.isActor_eq, hr.isBotLogin_eq]
  | @call o f g xs ys hfg hlength hargs =>
    have hany : ∀ {p : Expr → Bool}, (∀ {x y}, Alike x y → p x = p y) → xs.any p = ys.any p := by
      intro p hp
      have := congrArg (List.any · id) (map_eq_of_get hlength fun i hx hy => hp (hargs i hx hy))
      simpa using this
    have hmatcher : Text.sameIgnoringCase f = Text.sameIgnoringCase g := by
      funext x
      rw [Text.sameIgnoringCase, Text.sameIgnoringCase, Text.sameIgnoringCase_iff.1 hfg]
    rw [comparesBot, comparesBot, hmatcher, hany isActor_eq, hany isBotLogin_eq]

theorem botChecks_congr (h : Alike a b) (hparts : a.children.map botChecks = b.children.map botChecks) :
    a.botChecks = b.botChecks := by
  rw [botChecks_eq_children, botChecks_eq_children, h.comparesBot_eq, h.origin_eq, hparts]

/-- Expressions that are alike compare actors with bots in the same places. -/
theorem botChecks_eq (h : Alike a b) : a.botChecks = b.botChecks := by
  induction h with
  | literal h => exact botChecks_congr (.literal h) rfl
  | var h => exact botChecks_congr (.var h) rfl
  | property hr hxy ih => exact botChecks_congr (.property hr hxy) (by simp only [children, List.map, ih])
  | filter hr ih => exact botChecks_congr (.filter hr) (by simp only [children, List.map, ih])
  | index hr hk ihr ihk =>
    exact botChecks_congr (.index hr hk) (by simp only [children, List.map, ihr, ihk])
  | call hfg hlength hargs ih =>
    exact botChecks_congr (.call hfg hlength hargs) (map_eq_of_get hlength ih)
  | binary hl hr ihl ihr =>
    exact botChecks_congr (.binary hl hr) (by simp only [children, List.map, ihl, ihr])
  | not he ih => exact botChecks_congr (.not he) (by simp only [children, List.map, ih])

end Alike

/-- The case of names never changes a verdict. For every tree of untrusted paths, expressions that are the
    same have taints at the same offsets, in the same order, with as many paths each that are the same
    but for case, and the same comparisons of actors with bots. -/
theorem verdicts_ignore_letter_case {a b : Expr} (h : a.same b) (t : Trie) :
    List.Forall₂ SameTaint (exprTaints t a) (exprTaints t b) ∧ a.botChecks = b.botChecks := by
  have halike := Alike.of_same h
  exact ⟨List.rel_append (forall₂_innerTaints t halike) (forall₂_judge t halike), halike.botChecks_eq⟩

/-- A comparison of an actor with a bot, and an output that any name may select. -/
def lowerCased : Expr :=
  .call .start "contains"
    [ .property ⟨1, 10, 9⟩ (.var ⟨1, 10, 9⟩ "github") "actor"
    , .literal ⟨1, 24, 23⟩ (.string "x[bot]")
    , .property ⟨1, 34, 33⟩ (.var ⟨1, 34, 33⟩ "a") "b" ]

/-- The same in another case. -/
def upperCased : Expr :=
  .call .start "CONTAINS"
    [ .property ⟨1, 10, 9⟩ (.var ⟨1, 10, 9⟩ "GitHub") "Actor"
    , .literal ⟨1, 24, 23⟩ (.string "x[bot]")
    , .property ⟨1, 34, 33⟩ (.var ⟨1, 34, 33⟩ "A") "B" ]

theorem verdicts_ignore_letter_case_at_call :
    parse "contains(github.actor, 'x[bot]', a.b)" = .ok lowerCased ∧
    parse "CONTAINS(GitHub.Actor, 'x[bot]', A.B)" = .ok upperCased ∧
    exprTaints (.ofPaths ["a.**"]) lowerCased = [(33, ["a.b"])] ∧
    List.Forall₂ SameTaint [(33, ["a.b"])] (exprTaints (.ofPaths ["a.**"]) upperCased) ∧
    lowerCased.botChecks = upperCased.botChecks := by
  have hsame : lowerCased.same upperCased := by cbv
  have htaints : exprTaints (.ofPaths ["a.**"]) lowerCased = [(33, ["a.b"])] := by decide +kernel
  obtain ⟨hall, hchecks⟩ := verdicts_ignore_letter_case hsame (.ofPaths ["a.**"])
  rw [htaints] at hall
  exact ⟨by cbv, by cbv, htaints, hall, hchecks⟩

end Expr

end WorkflowAudit
