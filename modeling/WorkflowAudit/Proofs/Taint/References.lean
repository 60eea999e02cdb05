import WorkflowAudit.Proofs.Expr.Addresses
import WorkflowAudit.Proofs.Taint.ContextPath

/-!
References: the variables of an expression, each with the longest chain of accessors that starts at it.
The nodes that are judged are those that no accessor is applied to, each once, and what stands inside a
node before the node itself. Main statement: the taints of an expression that was read are its references
whose chain arrives at the end of an untrusted path, one taint for each, at its variable.
-/

namespace WorkflowAudit

namespace Expr

/-- The node is a link of a chain: an accessor that is applied to its first part. -/
def isLink : Expr → Bool
  | .property .. | .filter .. | .index .. => true
  | .literal .. | .var .. | .call .. | .binary .. | .not .. => false

/-- No accessor is applied to the node at the address. -/
def IsTop (root : Expr) (a : List Nat) : Prop :=
  ∀ front e, a = front ++ [0] → root.part? front = some e → e.isLink = false

/-- From the address on, `n` accessors are applied to one another, the first to the second and so on. -/
def Linked (root : Expr) (a : List Nat) (n : Nat) : Prop :=
  ∀ k < n, ∃ link, root.part? (a ++ List.replicate k 0) = some link ∧ link.isLink

/-- A variable of an expression and the longest chain of accessors that starts at it. -/
@[ext]
structure Reference (root : Expr) where
  /-- Where the chain stands. -/
  address : List Nat
  /-- The number of accessors. -/
  links : Nat
  chain : Expr
  origin : Origin
  name : String
  chain_stands : root.part? address = some chain
  var_stands : root.part? (address ++ List.replicate links 0) = some (.var origin name)
  linked : root.Linked address links
  longest : root.IsTop address

namespace Reference

variable {root : Expr}

/-- Where the variable stands. -/
def start (r : Reference root) : List Nat :=
  r.address ++ List.replicate r.links 0

/-- A chain has one variable. -/
theorem eq_of_address {r s : Reference root} (h : r.address = s.address) : r = s := by
  -- the shorter of two chains would end at a node that is both a variable and a link
  have hlinks : ∀ {r s : Reference root}, r.address = s.address → ¬r.links < s.links := by
    intro r s h hlt
    obtain ⟨e, he, hlink⟩ := s.linked r.links hlt
    rw [← h, r.var_stands] at he
    cases he
    cases hlink
  have heq : r.links = s.links := by
    have := hlinks h
    have := hlinks h.symm
    omega
  have hchain := r.chain_stands
  have hvar := r.var_stands
  rw [h, s.chain_stands] at hchain
  rw [h, heq, s.var_stands] at hvar
  simp only [Option.some.injEq, var.injEq] at hchain hvar
  exact Reference.ext h heq hchain.symm hvar.1.symm hvar.2.symm

/-- A variable has one longest chain. -/
theorem eq_of_start {r s : Reference root} (h : r.start = s.start) : r = s := by
  have haddress : ∀ {r s : Reference root}, r.links ≤ s.links → r.start = s.start →
      r.address = s.address := by
    intro r s hle h
    obtain ⟨k, hk⟩ := Nat.exists_eq_add_of_le' hle
    rw [start, start, hk, List.replicate_add, ← List.append_assoc] at h
    have hfront := List.append_cancel_right h
    cases k with
    | zero => simpa using hfront
    | succ k =>
      obtain ⟨e, he, hlink⟩ := s.linked k (by omega)
      rw [List.replicate_succ', ← List.append_assoc] at hfront
      rw [r.longest _ e hfront he] at hlink
      cases hlink
  rcases Nat.le_total r.links s.links with hle | hle
  · exact eq_of_address (haddress hle h)
  · exact eq_of_address (haddress hle h.symm).symm

end Reference

/-- Every node stands at the end of links that start at a node to which no accessor is applied. -/
theorem exists_isTop {root e : Expr} {a : List Nat} (h : root.part? a = some e) :
    ∃ top n, a = top ++ List.replicate n 0 ∧ root.IsTop top ∧ root.Linked top n := by
  induction a using List.reverseRecOn generalizing e with
  | nil => exact ⟨[], 0, rfl, by simp [IsTop], by simp [Linked]⟩
  | append_singleton a i ih =>
    rw [part?_append] at h
    obtain ⟨parent, hparent, -⟩ := Option.bind_eq_some_iff.1 h
    by_cases hlink : i = 0 ∧ parent.isLink
    · obtain ⟨rfl, hlink⟩ := hlink
      obtain ⟨top, n, rfl, htop, hlinks⟩ := ih hparent
      refine ⟨top, n + 1, by rw [List.replicate_succ', List.append_assoc], htop, fun k hk => ?_⟩
      rcases Nat.lt_succ_iff_lt_or_eq.1 hk with hk | rfl
      · exact hlinks k hk
      · exact ⟨parent, hparent, hlink⟩
    · refine ⟨a ++ [i], 0, by simp, fun front e' hfront he' => ?_, by simp [Linked]⟩
      obtain ⟨rfl, hi⟩ := List.append_inj' hfront rfl
      cases hi
      rw [hparent] at he'
      cases he'
      simpa using hlink

/-- Each variable has a longest chain. -/
theorem exists_reference {root : Expr} {a : List Nat} {o : Origin} {name : String}
    (h : root.part? a = some (.var o name)) : ∃ r : Reference root, r.start = a := by
  obtain ⟨top, n, rfl, htop, hlinks⟩ := exists_isTop h
  obtain ⟨chain, hchain, -⟩ := Option.bind_eq_some_iff.1 ((part?_append ..).symm.trans h)
  exact ⟨⟨top, n, chain, o, name, hchain, h, hlinks, htop⟩, rfl⟩

/-! ### The head of a chain -/

theorem linked_iff {root e : Expr} {a : List Nat} {n : Nat} (h : root.part? a = some e) :
    root.Linked a n ↔ e.Linked [] n := by
  simp only [Linked, part?_append_of_eq h, List.nil_append]

theorem linked_succ {e r : Expr} {n : Nat} (hr : e.children[0]? = some r) :
    e.Linked [] (n + 1) ↔ e.isLink ∧ r.Linked [] n := by
  constructor
  · intro h
    obtain ⟨link, hlink, his⟩ := h 0 (by omega)
    cases hlink
    refine ⟨his, fun k hk => ?_⟩
    obtain ⟨link, hlink, his⟩ := h (k + 1) (by omega)
    obtain ⟨child, hchild, hlink⟩ := part?_cons.1 hlink
    rw [hr] at hchild
    cases hchild
    exact ⟨link, hlink, his⟩
  · rintro ⟨hlink, h⟩ k hk
    cases k with
    | zero => exact ⟨e, rfl, hlink⟩
    | succ k =>
      obtain ⟨link, hk, his⟩ := h k (by omega)
      exact ⟨link, part?_cons.2 ⟨r, hr, hk⟩, his⟩

theorem chainHead_of_isLink {e r : Expr} (he : e.isLink) (hr : e.children[0]? = some r) :
    e.chainHead = r.chainHead := by
  cases e with
  | property | filter | index =>
    cases hr
    rfl
  | literal | var | call | binary | not => cases he

/-- Going down links does not change the head. -/
theorem chainHead_eq_of_linked {e last : Expr} {n : Nat} (h : e.part? (List.replicate n 0) = some last)
    (hlinks : e.Linked [] n) : last.chainHead = e.chainHead := by
  induction n generalizing e with
  | zero =>
    cases h
    rfl
  | succ n ih =>
    obtain ⟨r, hr, h⟩ := part?_cons.1 h
    obtain ⟨hlink, hlinks⟩ := (linked_succ hr).1 hlinks
    rw [ih h hlinks, chainHead_of_isLink hlink hr]

/-- The head of a chain stands at the end of its links. -/
theorem exists_part?_chainHead (e : Expr) :
    ∃ n, e.part? (List.replicate n 0) = some e.chainHead ∧ e.Linked [] n := by
  have hstep : ∀ {e r : Expr}, e.isLink → e.children[0]? = some r →
      (∃ n, r.part? (List.replicate n 0) = some r.chainHead ∧ r.Linked [] n) →
      ∃ n, e.part? (List.replicate n 0) = some r.chainHead ∧ e.Linked [] n := by
    rintro e r hlink hr ⟨n, hhead, hlinks⟩
    exact ⟨n + 1, part?_cons.2 ⟨r, hr, hhead⟩, (linked_succ hr).2 ⟨hlink, hlinks⟩⟩
  fun_induction chainHead e with
  | case1 o r name ih => exact hstep rfl rfl ih
  | case2 o r ih => exact hstep rfl rfl ih
  | case3 o r k ih => exact hstep rfl rfl ih
  | case4 e => exact ⟨0, rfl, by simp [Linked]⟩

theorem Reference.chainHead_eq {root : Expr} (r : Reference root) :
    r.chain.chainHead = .var r.origin r.name := by
  have hvar := r.var_stands
  rw [part?_append_of_eq r.chain_stands] at hvar
  exact (chainHead_eq_of_linked hvar ((linked_iff r.chain_stands).1 r.linked)).symm

/-- A chain of links starts at a variable. -/
theorem exists_var_of_links? {e : Expr} {links : List Link} (h : e.links? = some links) :
    ∃ o name, e.chainHead = .var o name := by
  fun_induction Expr.links? e generalizing links with
  | case1 o name => exact ⟨o, name, rfl⟩
  | case2 o r name ih | case3 o r o' name ih | case4 o r k hk ih | case5 o r ih =>
    obtain ⟨ls, hls, -⟩ := Option.map_eq_some_iff.1 h
    exact ih hls
  | case6 | case7 | case8 | case9 => cases h

/-- A node that no accessor is applied to and that leads anywhere is the chain of a reference. -/
theorem exists_reference_of_isTop {t : Trie} {root e : Expr} {a : List Nat}
    (he : root.part? a = some e) (htop : root.IsTop a) (hreach : reach t e ≠ []) :
    ∃ r : Reference root, r.address = a ∧ r.chain = e := by
  obtain ⟨links, hlinks⟩ := exists_links?_of_reach hreach
  obtain ⟨o, name, hhead⟩ := exists_var_of_links? hlinks
  obtain ⟨n, hvar, hlinks⟩ := e.exists_part?_chainHead
  rw [hhead, ← part?_append_of_eq he] at hvar
  exact ⟨⟨a, n, e, o, name, he, hvar, (linked_iff he).2 hlinks, htop⟩, rfl, rfl⟩

/-! ### What is judged, and in which order -/

/-- The same nodes, one level further down. -/
def under (i : Nat) (xs : List (List Nat × Expr)) : List (List Nat × Expr) :=
  xs.map fun x => (i :: x.1, x.2)

mutual

/-- The nodes below an expression that are judged, with their addresses. -/
def judgedBelow : Expr → List (List Nat × Expr)
  | .literal .. | .var .. => []
  | .property _ r _ | .filter _ r => under 0 r.judgedBelow
  | .index _ e k => under 0 e.judgedBelow ++ under 1 (k.judgedBelow ++ [([], k)])
  | .call _ _ args => judgedIn 0 args
  | .binary _ _ l r => under 0 (l.judgedBelow ++ [([], l)]) ++ under 1 (r.judgedBelow ++ [([], r)])
  | .not _ e => under 0 (e.judgedBelow ++ [([], e)])

/-- The nodes that are judged in a list of arguments, which are numbered from `i` on. -/
def judgedIn (i : Nat) : List Expr → List (List Nat × Expr)
  | [] => []
  | e :: rest => under i (e.judgedBelow ++ [([], e)]) ++ judgedIn (i + 1) rest

end

/-- The nodes of an expression that are judged. -/
def judged (e : Expr) : List (List Nat × Expr) :=
  e.judgedBelow ++ [([], e)]

theorem mem_under {i j : Nat} {a : List Nat} {e : Expr} {xs : List (List Nat × Expr)} :
    (i :: a, e) ∈ under j xs ↔ i = j ∧ (a, e) ∈ xs := by
  simp only [under, List.mem_map, Prod.mk.injEq, List.cons.injEq, Prod.exists]
  constructor
  · rintro ⟨b, e', hmem, ⟨rfl, rfl⟩, rfl⟩
    exact ⟨rfl, hmem⟩
  · rintro ⟨rfl, hmem⟩
    exact ⟨a, e, hmem, ⟨rfl, rfl⟩, rfl⟩

theorem nil_not_mem_under {j : Nat} {e : Expr} {xs : List (List Nat × Expr)} :
    ([], e) ∉ under j xs := by
  simp [under]

theorem mem_judgedIn {i n : Nat} {a : List Nat} {e : Expr} {es : List Expr} :
    (i :: a, e) ∈ judgedIn n es ↔ n ≤ i ∧ ∃ child, es[i - n]? = some child ∧
      ((a, e) ∈ child.judgedBelow ∨ a = [] ∧ e = child) := by
  induction es generalizing n with
  | nil => simp [judgedIn]
  | cons child es ih =>
    rw [judgedIn, List.mem_append, mem_under, ih, List.mem_append, List.mem_singleton, Prod.mk.injEq]
    rcases Nat.lt_trichotomy i n with hlt | rfl | hlt
    · constructor
      · rintro (⟨rfl, -⟩ | ⟨hle, -⟩) <;> omega
      · rintro ⟨hle, -⟩
        omega
    · simp
    · have hnext : i - n = i - (n + 1) + 1 := by omega
      rw [hnext, List.getElem?_cons_succ]
      constructor
      · rintro (⟨rfl, -⟩ | ⟨-, h⟩)
        · omega
        · exact ⟨by omega, h⟩
      · rintro ⟨-, h⟩
        exact Or.inr ⟨by omega, h⟩

theorem nil_not_mem_judgedIn {n : Nat} {e : Expr} {es : List Expr} : ([], e) ∉ judgedIn n es := by
  induction es generalizing n with
  | nil => simp [judgedIn]
  | cons child es ih =>
    rw [judgedIn, List.mem_append]
    rintro (h | h)
    · exact nil_not_mem_under h
    · exact ih h

theorem nil_not_mem_judgedBelow {e c : Expr} : ([], c) ∉ e.judgedBelow := by
  cases e <;> simp [judgedBelow, nil_not_mem_under, nil_not_mem_judgedIn]

/-- Below an expression, its parts are judged and what is judged below them, but for the part that an
    accessor is applied to. -/
theorem mem_judgedBelow_cons {e c : Expr} {i : Nat} {a : List Nat} :
    (i :: a, c) ∈ e.judgedBelow ↔ ∃ child, e.children[i]? = some child ∧
      ((a, c) ∈ child.judgedBelow ∨ a = [] ∧ c = child ∧ ¬(i = 0 ∧ e.isLink)) := by
  cases e with
  | literal | var => simp [judgedBelow, children]
  | property | filter | not =>
    rcases i with _ | i <;> simp [judgedBelow, children, mem_under, isLink]
  | index | binary =>
    rcases i with _ | _ | i <;> simp [judgedBelow, children, mem_under, isLink]
  | call o f args => simp [judgedBelow, children, mem_judgedIn, isLink]

theorem isTop_cons {root child : Expr} {i : Nat} {a : List Nat}
    (hchild : root.children[i]? = some child) (ha : a ≠ []) : root.IsTop (i :: a) ↔ child.IsTop a := by
  constructor
  · rintro h front e rfl he
    exact h (i :: front) e rfl (part?_cons.2 ⟨child, hchild, he⟩)
  · intro h front e hfront he
    cases front with
    | nil =>
      cases hfront
      exact absurd rfl ha
    | cons j front =>
      cases hfront
      obtain ⟨child', hchild', he⟩ := part?_cons.1 he
      rw [hchild] at hchild'
      cases hchild'
      exact h front e rfl he

theorem isTop_singleton {root : Expr} {i : Nat} : root.IsTop [i] ↔ ¬(i = 0 ∧ root.isLink) := by
  constructor
  · rintro h ⟨rfl, hlink⟩
    rw [h [] root rfl rfl] at hlink
    cases hlink
  · intro h front e hfront he
    have hsplit : [] ++ [i] = front ++ [0] := hfront
    obtain ⟨rfl, hi⟩ := List.append_inj' hsplit rfl
    cases hi
    cases he
    simpa using h

/-- Below an expression, the nodes are judged that no accessor is applied to. -/
theorem mem_judgedBelow {e c : Expr} {a : List Nat} :
    (a, c) ∈ e.judgedBelow ↔ a ≠ [] ∧ e.part? a = some c ∧ e.IsTop a := by
  induction a generalizing e with
  | nil => simp [nil_not_mem_judgedBelow]
  | cons i a ih =>
    rw [mem_judgedBelow_cons, part?_cons]
    constructor
    · rintro ⟨child, hchild, h | ⟨rfl, rfl, htop⟩⟩
      · obtain ⟨ha, hc, htop⟩ := ih.1 h
        exact ⟨by simp, ⟨child, hchild, hc⟩, (isTop_cons hchild ha).2 htop⟩
      · exact ⟨by simp, ⟨c, hchild, rfl⟩, isTop_singleton.2 htop⟩
    · rintro ⟨-, ⟨child, hchild, hc⟩, htop⟩
      refine ⟨child, hchild, ?_⟩
      by_cases ha : a = []
      · cases ha
        cases hc
        exact Or.inr ⟨rfl, rfl, isTop_singleton.1 htop⟩
      · exact Or.inl (ih.2 ⟨ha, hc, (isTop_cons hchild ha).1 htop⟩)

/-- The nodes are judged that no accessor is applied to. -/
theorem mem_judged {e c : Expr} {a : List Nat} :
    (a, c) ∈ e.judged ↔ e.part? a = some c ∧ e.IsTop a := by
  rw [judged, List.mem_append, mem_judgedBelow, List.mem_singleton, Prod.mk.injEq]
  constructor
  · rintro (⟨-, h⟩ | ⟨rfl, rfl⟩)
    · exact h
    · exact ⟨rfl, by simp [IsTop]⟩
  · rintro ⟨hc, htop⟩
    by_cases ha : a = []
    · cases ha
      cases hc
      exact Or.inr ⟨rfl, rfl⟩
    · exact Or.inl ⟨ha, hc, htop⟩

/-- What stands inside a node comes before the node. -/
def InnerFirst (xs : List (List Nat × Expr)) : Prop :=
  xs.Pairwise fun x y => ¬x.1 <+: y.1

theorem InnerFirst.under {i : Nat} {xs : List (List Nat × Expr)} (h : InnerFirst xs) :
    InnerFirst (under i xs) :=
  List.pairwise_map.2 (h.imp fun hxy hpre => hxy (List.cons_prefix_cons.1 hpre).2)

theorem innerFirst_judged {e : Expr} (h : InnerFirst e.judgedBelow) :
    InnerFirst (e.judgedBelow ++ [([], e)]) := by
  refine List.pairwise_append.2 ⟨h, List.pairwise_singleton .., ?_⟩
  rintro ⟨a, c⟩ hx y hy hpre
  rw [List.mem_singleton.1 hy, List.prefix_nil] at hpre
  cases hpre
  exact nil_not_mem_judgedBelow hx

/-- Nodes under different parts do not stand inside one another. -/
theorem InnerFirst.append {xs ys : List (List Nat × Expr)} (hxs : InnerFirst xs) (hys : InnerFirst ys)
    (hapart : ∀ i a b c d, (i :: a, c) ∈ xs → (i :: b, d) ∉ ys) (hnil : ∀ c, ([], c) ∉ xs) :
    InnerFirst (xs ++ ys) := by
  refine List.pairwise_append.2 ⟨hxs, hys, ?_⟩
  rintro ⟨a, c⟩ hx ⟨b, d⟩ hy hpre
  cases a with
  | nil => exact hnil c hx
  | cons i a =>
    obtain ⟨b', rfl⟩ := hpre
    exact hapart i a (a ++ b') c d hx hy

mutual

theorem innerFirst_judgedBelow : ∀ e : Expr, InnerFirst e.judgedBelow
  | .literal .. | .var .. => List.Pairwise.nil
  | .property _ r _ | .filter _ r => (innerFirst_judgedBelow r).under
  | .index _ e k => (innerFirst_judgedBelow e).under.append
      (innerFirst_judged (innerFirst_judgedBelow k)).under
      (by simp +contextual [mem_under]) fun _ => nil_not_mem_under
  | .call _ _ args => innerFirst_judgedIn 0 args
  | .binary _ _ l r => (innerFirst_judged (innerFirst_judgedBelow l)).under.append
      (innerFirst_judged (innerFirst_judgedBelow r)).under
      (by simp +contextual [mem_under]) fun _ => nil_not_mem_under
  | .not _ e => (innerFirst_judged (innerFirst_judgedBelow e)).under

theorem innerFirst_judgedIn (n : Nat) : ∀ es : List Expr, InnerFirst (judgedIn n es)
  | [] => List.Pairwise.nil
  | e :: es => (innerFirst_judged (innerFirst_judgedBelow e)).under.append (innerFirst_judgedIn (n + 1) es)
      (fun i a b c d hx hy => by
        have := (mem_under.1 hx).1
        have := (mem_judgedIn.1 hy).1
        omega)
      fun _ => nil_not_mem_under

end

end Expr

/-! ### The taints are judgements -/

mutual

theorem innerTaints_eq (t : Trie) : ∀ e : Expr,
    innerTaints t e = e.judgedBelow.flatMap fun x => judge t x.2
  | .literal .. | .var .. => rfl
  | .property _ r _ | .filter _ r => by
    rw [innerTaints, Expr.judgedBelow, Expr.under, List.flatMap_map, innerTaints_eq t r]
  | .index _ e k => by
    simp [innerTaints, Expr.judgedBelow, Expr.under, List.flatMap_map, innerTaints_eq t e,
      innerTaints_eq t k]
  | .call _ _ args => argumentTaints_eq t 0 args
  | .binary _ _ l r => by
    simp [innerTaints, Expr.judgedBelow, Expr.under, List.flatMap_map, innerTaints_eq t l,
      innerTaints_eq t r]
  | .not _ e => by
    simp [innerTaints, Expr.judgedBelow, Expr.under, List.flatMap_map, innerTaints_eq t e]

theorem argumentTaints_eq (t : Trie) (i : Nat) : ∀ es : List Expr,
    argumentTaints t es = (Expr.judgedIn i es).flatMap fun x => judge t x.2
  | [] => rfl
  | e :: es => by
    simp [argumentTaints, Expr.judgedIn, Expr.under, List.flatMap_map, innerTaints_eq t e,
      argumentTaints_eq t (i + 1) es]

end

/-- The taints are the judgements that find something. -/
theorem exprTaints_eq (t : Trie) (e : Expr) : exprTaints t e =
    (e.judged.filter fun x => arrivals (reach t x.2) ≠ []).map fun x =>
      (x.2.origin.offset, arrivals (reach t x.2)) := by
  have hall : ∀ xs : List (List Nat × Expr), (xs.flatMap fun x => judge t x.2) =
      (xs.filter fun x => arrivals (reach t x.2) ≠ []).map fun x =>
        (x.2.origin.offset, arrivals (reach t x.2)) := by
    intro xs
    induction xs with
    | nil => rfl
    | cons x xs ih =>
      rw [List.flatMap_cons, ih, judge_eq]
      by_cases hx : arrivals (reach t x.2) = [] <;> simp [hx]
  rw [exprTaints, innerTaints_eq, ← hall, Expr.judged, List.flatMap_append, List.flatMap_singleton]

theorem arrivals_ne_nil {rs : List Reached} : arrivals rs ≠ [] ↔ ∃ r ∈ rs, r.trie.isLeaf := by
  simp [arrivals]

namespace Expr

/-- The nodes whose judgement finds something are the chains of references. -/
theorem exists_references (t : Trie) (root : Expr) : ∃ found : List (Reference root),
    found.map (fun r => (r.address, r.chain)) =
        root.judged.filter (fun x => arrivals (reach t x.2) ≠ []) ∧
      ∀ r, r ∈ found ↔ ∃ x ∈ reach t r.chain, x.trie.isLeaf := by
  have hrange : root.judged.filter (fun x => arrivals (reach t x.2) ≠ []) ∈
      Set.range (List.map fun r : Reference root => (r.address, r.chain)) := by
    rw [Set.range_list_map]
    rintro ⟨a, e⟩ hx
    obtain ⟨hmem, hleaf⟩ := List.mem_filter.1 hx
    obtain ⟨x, hx, -⟩ := arrivals_ne_nil.1 (of_decide_eq_true hleaf)
    obtain ⟨he, htop⟩ := mem_judged.1 hmem
    obtain ⟨r, rfl, rfl⟩ := exists_reference_of_isTop he htop (List.ne_nil_of_mem hx)
    exact ⟨r, rfl⟩
  obtain ⟨found, hfound⟩ := hrange
  refine ⟨found, hfound, fun r => ?_⟩
  have hmem : r ∈ found ↔
      (r.address, r.chain) ∈ root.judged.filter fun x => arrivals (reach t x.2) ≠ [] := by
    rw [← hfound, List.mem_map]
    constructor
    · exact fun h => ⟨r, h, rfl⟩
    · rintro ⟨s, hs, heq⟩
      rwa [← Reference.eq_of_address (Prod.mk.inj heq).1]
  rw [hmem, List.mem_filter, mem_judged, decide_eq_true_eq, arrivals_ne_nil]
  exact and_iff_right ⟨r.chain_stands, r.longest⟩

/-- Each variable is judged once, as the longest chain that starts at it. A variable of an expression that
    was read has one longest chain. The taints of the expression are the references whose chain arrives
    at the end of an untrusted path, each once: one taint for each of them, with the offset of its
    variable and the paths of its chain. No two taints have the same offset, and a reference that stands
    inside the chain of another, in one of its indices, comes before it. -/
theorem variables_judged_once {text : String} {root : Expr}
    (h : parse text = .ok root ∨ ∃ n, parseFragment text = .ok (root, n)) (t : Trie) :
    (∀ a o name, root.part? a = some (.var o name) → ∃! r : Reference root, r.start = a) ∧
    ∃ found : List (Reference root),
      (∀ r, r ∈ found ↔ ∃ x ∈ reach t r.chain, x.trie.isLeaf) ∧
      found.Nodup ∧
      exprTaints t root = found.map (fun r => (r.origin.offset, arrivals (reach t r.chain))) ∧
      ((exprTaints t root).map (·.1)).Nodup ∧
      found.Pairwise fun r s => ¬r.address <+: s.address := by
  refine ⟨fun a o name ha => ?_, ?_⟩
  · obtain ⟨r, hr⟩ := exists_reference ha
    exact ⟨r, hr, fun s hs => Reference.eq_of_start (hs.trans hr.symm)⟩
  obtain ⟨found, hfound, hmem⟩ := exists_references t root
  have horder : found.Pairwise fun r s => ¬r.address <+: s.address := by
    have := (innerFirst_judged (innerFirst_judgedBelow root)).filter
      fun x => decide (arrivals (reach t x.2) ≠ [])
    rw [← judged, ← hfound, List.pairwise_map] at this
    exact this
  have hnodup : found.Nodup := by
    refine horder.imp ?_
    rintro r _ hrs rfl
    exact hrs List.prefix_rfl
  have htaints : exprTaints t root =
      found.map fun r => (r.origin.offset, arrivals (reach t r.chain)) := by
    rw [exprTaints_eq, ← hfound, List.map_map]
    refine List.map_congr_left fun r _ => ?_
    have hhead := origin_eq_chainHead h (mem_preorder_of_part? r.chain_stands)
    rw [r.chainHead_eq] at hhead
    rw [Function.comp, hhead]
    rfl
  refine ⟨found, hmem, hnodup, htaints, ?_, horder⟩
  rw [htaints, List.map_map]
  refine hnodup.map fun r s hoffset => ?_
  exact Reference.eq_of_start (address_eq_of_offset_eq h r.var_stands s.var_stands hoffset)

/-- A chain that is an argument, with a chain as its index. -/
def indexedArgument : Expr :=
  .call .start "f"
    [ .property ⟨1, 3, 2⟩ (.property ⟨1, 3, 2⟩ (.var ⟨1, 3, 2⟩ "a") "b") "c"
    , .property ⟨1, 10, 9⟩
        (.index ⟨1, 10, 9⟩ (.property ⟨1, 10, 9⟩ (.var ⟨1, 10, 9⟩ "c") "d")
          (.property ⟨1, 14, 13⟩ (.var ⟨1, 14, 13⟩ "a") "b")) "e" ]

/-- The longer chain on `a` is no untrusted path, so its beginning is not reported; the index is reported
    before the chain that it stands in. -/
theorem variables_judged_once_at_index :
    parse "f(a.b.c, c.d[a.b].e)" = .ok indexedArgument ∧
    exprTaints (.ofPaths ["a.b", "c.d.*.e"]) indexedArgument = [(13, ["a.b"]), (9, ["c.d.*.e"])] ∧
    ∃ found : List (Reference indexedArgument), found.Nodup ∧
      [(13, ["a.b"]), (9, ["c.d.*.e"])] = found.map fun r =>
        (r.origin.offset, arrivals (reach (.ofPaths ["a.b", "c.d.*.e"]) r.chain)) := by
  have h : parse "f(a.b.c, c.d[a.b].e)" = .ok indexedArgument := by cbv
  have htaints : exprTaints (.ofPaths ["a.b", "c.d.*.e"]) indexedArgument =
      [(13, ["a.b"]), (9, ["c.d.*.e"])] := by decide +kernel
  obtain ⟨-, found, -, hnodup, hfound, -⟩ :=
    variables_judged_once (.inl h) (.ofPaths ["a.b", "c.d.*.e"])
  exact ⟨h, htaints, found, hnodup, htaints ▸ hfound⟩

end Expr

end WorkflowAudit
