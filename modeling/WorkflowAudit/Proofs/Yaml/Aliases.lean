import WorkflowAudit.Proofs.Yaml.Parts
import WorkflowAudit.Proofs.Yaml.Spans

/-!
What aliases stand for. An address leads to a part of a document, and addresses tell which parts are
complete before which. The tree of a document gives every part a node, made of the nodes of its own
parts, and an alias the node of the anchored part with its name that was complete last before it. Main
statement: a document is accepted exactly if there is such a tree, and otherwise an alias that stands
for nothing is what is reported, when all before it is in order.
-/

namespace WorkflowAudit.Yaml

/-! ### Addresses -/

/-- Numbers of parts, which lead to a part, to one of its parts, and so on. -/
abbrev Address := List Nat

/-- The part at an address below a part. -/
def Part.at? (part : Part) : Address → Option Part
  | [] => some part
  | i :: p => part.outline.parts[i]?.bind fun inner => inner.at? p

/-- The part at an address, which begins with the number of one of the parts given. -/
def partAt? (parts : List Part) : Address → Option Part
  | [] => none
  | i :: p => parts[i]?.bind (·.at? p)

namespace Address

/-- The part at the first address is complete before the part at the second begins. -/
def Before : Address → Address → Prop
  | i :: q, j :: p => i < j ∨ i = j ∧ Before q p
  | _, _ => False

/-- The part at the first address is complete once the part at the second is; what a part contains is
    complete before it. -/
def NoLater : Address → Address → Prop
  | _, [] => True
  | [], _ :: _ => False
  | i :: q, j :: p => i < j ∨ i = j ∧ NoLater q p

/-- The address of a part when another one is put before all parts. -/
def up : Address → Address
  | [] => []
  | i :: p => (i + 1) :: p

variable {p q : Address}

theorem NoLater.antisymm (h : p.NoLater q) (h' : q.NoLater p) : p = q := by
  induction p generalizing q with
  | nil =>
    cases q with
    | nil => rfl
    | cons j q => cases h
  | cons i p ih =>
    cases q with
    | nil => cases h'
    | cons j q =>
      rcases h with h | ⟨rfl, h⟩
      · rcases h' with h' | ⟨h', -⟩ <;> omega
      · rcases h' with h' | ⟨-, h'⟩
        · omega
        · rw [ih h h']

theorem noLater_nil (p : Address) : p.NoLater [] := by
  cases p <;> trivial

theorem noLater_cons_cons (i : Nat) : NoLater (i :: p) (i :: q) ↔ p.NoLater q := by
  simp [NoLater]

theorem noLater_up_up : p.up.NoLater q.up ↔ p.NoLater q := by
  cases p <;> cases q <;> simp [up, NoLater]

/-- A part is not complete before what it contains. -/
theorem Before.not_within (h : q.Before p) : ¬ q <+: p := by
  induction q generalizing p with
  | nil => cases p <;> cases h
  | cons i q ih =>
    cases p with
    | nil => cases h
    | cons j p =>
      rw [List.cons_prefix_cons]
      rintro ⟨rfl, hq⟩
      rcases h with h | ⟨-, h⟩
      · exact Nat.lt_irrefl _ h
      · exact ih h hq

/-- What is complete before a part is complete once the part in front of it is. -/
theorem Before.noLater_concat {i : Nat} (h : q.Before (p ++ [i + 1])) : q.NoLater (p ++ [i]) := by
  induction p generalizing q with
  | nil =>
    rcases q with _ | ⟨j, q⟩
    · cases h
    · rcases h with h | ⟨-, h⟩
      · rcases Nat.lt_succ_iff_lt_or_eq.1 h with h | rfl
        · exact .inl h
        · exact (noLater_cons_cons j).2 (noLater_nil q)
      · cases q <;> cases h
  | cons k p ih =>
    rcases q with _ | ⟨j, q⟩
    · cases h
    · rcases h with h | ⟨rfl, h⟩
      · exact .inl h
      · exact .inr ⟨rfl, ih h⟩

end Address

open Address

variable {part inner : Part} {parts rest : List Part} {p q : Address} {name : String}

theorem partAt?_zero (h : partAt? part.outline.parts p = some inner) :
    partAt? (part :: rest) (0 :: p) = some inner := by
  cases p with
  | nil => cases h
  | cons i p => exact h

/-! ### Anchored parts -/

/-- The part at the address is anchored under the name. -/
def Anchored (parts : List Part) (name : String) (q : Address) : Prop :=
  ∃ isKey content, partAt? parts q = some ⟨isKey, .anchored name content⟩

/-- The part at `q` is anchored under the name, and complete before the part at `p`. -/
def Ready (parts : List Part) (name : String) (p q : Address) : Prop :=
  Anchored parts name q ∧ q.Before p

/-- Of the parts at some addresses, the one at `q` is complete last. -/
def IsLast (S : Address → Prop) (q : Address) : Prop :=
  S q ∧ ∀ q', S q' → q'.NoLater q

theorem not_ready_first : ¬ Ready parts name [0] q := by
  rintro ⟨-, hbefore⟩
  rcases q with _ | ⟨i, q⟩
  · exact hbefore
  · rcases hbefore with h | ⟨-, h⟩
    · exact Nat.not_lt_zero _ h
    · cases q <;> exact h

/-- What is ready at a part of the first part is what is ready among the parts of that. -/
theorem ready_zero :
    Ready (part :: rest) name (0 :: p) q ↔ ∃ q', q = 0 :: q' ∧ Ready part.outline.parts name p q' := by
  constructor
  · rintro ⟨⟨isKey, content, hq⟩, hbefore⟩
    rcases q with _ | ⟨i, q⟩
    · cases hbefore
    · rcases hbefore with h | ⟨rfl, hbefore⟩
      · exact absurd h (Nat.not_lt_zero _)
      · rcases q with _ | ⟨j, q⟩
        · cases p <;> cases hbefore
        · exact ⟨_, rfl, ⟨isKey, content, hq⟩, hbefore⟩
  · rintro ⟨q', rfl, ⟨isKey, content, hq⟩, hbefore⟩
    exact ⟨⟨isKey, content, partAt?_zero hq⟩, .inr ⟨rfl, hbefore⟩⟩

/-- What is ready at a part after the first is ready after the first alone, or among those after it. -/
theorem ready_succ {i : Nat} : Ready (part :: rest) name ((i + 1) :: p) q ↔
    Ready [part] name [1] q ∨ ∃ q', q = q'.up ∧ Ready rest name (i :: p) q' := by
  rcases q with _ | ⟨_ | j, q⟩
  · constructor
    · rintro ⟨-, ⟨⟩⟩
    · rintro (⟨-, ⟨⟩⟩ | ⟨_ | _, ⟨⟩, -, ⟨⟩⟩)
  · constructor
    · rintro ⟨hq, -⟩
      exact .inl ⟨hq, .inl Nat.one_pos⟩
    · rintro (⟨hq, -⟩ | ⟨_ | _, ⟨⟩, -⟩)
      exact ⟨hq, .inl (Nat.succ_pos i)⟩
  · constructor
    · rintro ⟨hq, hbefore⟩
      refine .inr ⟨j :: q, rfl, hq, ?_⟩
      simpa [Before] using hbefore
    · rintro (⟨⟨_, _, ⟨⟩⟩, -⟩ | ⟨_ | _, ⟨⟩, hq, hbefore⟩)
      refine ⟨hq, ?_⟩
      simpa [Before] using hbefore

/-- After a part, what is ready among its parts is, and then the part itself when it is anchored. -/
theorem ready_single : Ready [part] name [1] q ↔
    (∃ q', q = 0 :: q' ∧ Ready part.outline.parts name [part.outline.parts.length] q') ∨
      q = [0] ∧ ∃ content, part.outline = .anchored name content := by
  constructor
  · rintro ⟨⟨isKey, content, hq⟩, hbefore⟩
    rcases q with _ | ⟨_ | i, _ | ⟨j, q⟩⟩
    · cases hq
    · cases hq
      exact .inr ⟨rfl, content, rfl⟩
    · obtain ⟨inner, hinner, -⟩ := Option.bind_eq_some_iff.1 hq
      have hj := (List.getElem?_eq_some_iff.1 hinner).1
      exact .inl ⟨_, rfl, ⟨isKey, content, hq⟩, .inl hj⟩
    · cases hq
    · cases hq
  · rintro (⟨q', rfl, ⟨isKey, content, hq⟩, -⟩ | ⟨rfl, content, hpart⟩)
    · exact ⟨⟨isKey, content, partAt?_zero hq⟩, .inl Nat.one_pos⟩
    · exact ⟨⟨part.isKey, content, hpart ▸ rfl⟩, .inl Nat.one_pos⟩

/-! ### What is complete last -/

/-- A part that is complete last is there, if any part is. -/
def HasLast (S : Address → Prop) : Prop :=
  (∃ q, S q) → ∃ q, IsLast S q

theorem HasLast.map {S S' : Address → Prop} {f : Address → Address}
    (hf : ∀ p q, (f p).NoLater (f q) ↔ p.NoLater q) (hS : ∀ q, S q ↔ ∃ q', q = f q' ∧ S' q')
    (h : HasLast S') : HasLast S := by
  rintro ⟨q, hq⟩
  obtain ⟨q', -, hq'⟩ := (hS q).1 hq
  obtain ⟨last, hlast, hmax⟩ := h ⟨q', hq'⟩
  refine ⟨f last, (hS _).2 ⟨last, rfl, hlast⟩, fun r hr => ?_⟩
  obtain ⟨r', rfl, hr'⟩ := (hS r).1 hr
  exact (hf _ _).2 (hmax r' hr')

theorem HasLast.union {S S₁ S₂ : Address → Prop} (hS : ∀ q, S q ↔ S₁ q ∨ S₂ q)
    (horder : ∀ q₁ q₂, S₁ q₁ → S₂ q₂ → q₁.NoLater q₂) (h₁ : HasLast S₁) (h₂ : HasLast S₂) :
    HasLast S := by
  rintro ⟨q, hq⟩
  by_cases hlater : ∃ q₂, S₂ q₂
  · obtain ⟨last, hlast, hmax⟩ := h₂ hlater
    refine ⟨last, (hS _).2 (.inr hlast), fun r hr => ?_⟩
    exact ((hS r).1 hr).elim (fun hr => horder _ _ hr hlast) (hmax r)
  · have hfirst : S₁ q := ((hS q).1 hq).resolve_right fun h => hlater ⟨q, h⟩
    obtain ⟨last, hlast, hmax⟩ := h₁ ⟨q, hfirst⟩
    refine ⟨last, (hS _).2 (.inl hlast), fun r hr => hmax r ?_⟩
    exact ((hS r).1 hr).resolve_right fun h => hlater ⟨r, h⟩

/-- The parts of a part are complete before it. -/
theorem noLater_of_within (h : ∃ q', q = 0 :: q' ∧ Ready parts name p q') : q.NoLater [0] := by
  obtain ⟨q', rfl, -⟩ := h
  exact (noLater_cons_cons 0).2 (noLater_nil q')

theorem noLater_of_after {q₁ q₂ p₂ : Address} (h₁ : Ready [part] name [1] q₁)
    (h₂ : ∃ q', q₂ = q'.up ∧ Ready parts name p₂ q') : q₁.NoLater q₂ := by
  obtain ⟨q', rfl, ⟨_, _, hq'⟩, -⟩ := h₂
  rcases q' with _ | ⟨j, q'⟩
  · cases hq'
  · rcases ready_single.1 h₁ with ⟨q, rfl, -⟩ | ⟨rfl, -⟩
    · exact .inl (Nat.succ_pos j)
    · exact .inl (Nat.succ_pos j)

/-- Of the anchored parts with a name that are complete before a place, one is complete last. -/
theorem hasLast_ready (parts : List Part) (name : String) (p : Address) :
    HasLast (Ready parts name p) := by
  induction parts using Part.induction generalizing p with
  | nil =>
    rintro ⟨_ | _, ⟨_, _, ⟨⟩⟩, -⟩
  | cons part rest ihparts ihrest =>
    rcases p with _ | ⟨_ | i, p⟩
    · rintro ⟨_ | _, -, ⟨⟩⟩
    · exact (ihparts p).map (fun _ _ => noLater_cons_cons 0) fun _ => ready_zero
    · -- complete are, in this order, what is within the first part, that part, and what is after it
      have hitself : HasLast fun q => q = [0] ∧ ∃ content, part.outline = .anchored name content := by
        rintro ⟨_, rfl, hpart⟩
        refine ⟨[0], ⟨rfl, hpart⟩, ?_⟩
        rintro _ ⟨rfl, -⟩
        exact (noLater_cons_cons 0).2 (noLater_nil [])
      have hsingle : HasLast (Ready [part] name [1]) := by
        refine .union (fun _ => ready_single) ?_
          ((ihparts _).map (fun _ _ => noLater_cons_cons 0) fun _ => Iff.rfl) hitself
        rintro q₁ _ h₁ ⟨rfl, -⟩
        exact noLater_of_within h₁
      exact .union (fun _ => ready_succ) (fun _ _ => noLater_of_after) hsingle
        ((ihrest (i :: p)).map (fun _ _ => noLater_up_up) fun _ => Iff.rfl)

/-! ### What a name stands for -/

variable {document : List Char} {anchors table : Node.Anchors} {node : Address → Node} {n : Node}

/-- The node of the part that is complete last, or that found otherwise when there are no parts. -/
def Finds (S : Address → Prop) (node : Address → Node) (otherwise : Option Node) (n : Node) : Prop :=
  (∃ q, IsLast S q ∧ n = node q) ∨ (∀ q, ¬ S q) ∧ otherwise = some n

theorem finds_map {S S' : Address → Prop} {f : Address → Address} {otherwise : Option Node}
    (hf : ∀ p q, (f p).NoLater (f q) ↔ p.NoLater q) (hS : ∀ q, S q ↔ ∃ q', q = f q' ∧ S' q') :
    Finds S node otherwise n ↔ Finds S' (node ∘ f) otherwise n := by
  constructor
  · rintro (⟨q, ⟨hq, hlast⟩, rfl⟩ | ⟨hnone, hn⟩)
    · obtain ⟨q', rfl, hq'⟩ := (hS q).1 hq
      exact .inl ⟨q', ⟨hq', fun r hr => (hf _ _).1 (hlast _ ((hS _).2 ⟨r, rfl, hr⟩))⟩, rfl⟩
    · exact .inr ⟨fun r hr => hnone _ ((hS _).2 ⟨r, rfl, hr⟩), hn⟩
  · rintro (⟨q', ⟨hq', hlast⟩, rfl⟩ | ⟨hnone, hn⟩)
    · refine .inl ⟨f q', ⟨(hS _).2 ⟨q', rfl, hq'⟩, fun r hr => ?_⟩, rfl⟩
      obtain ⟨r', rfl, hr'⟩ := (hS r).1 hr
      exact (hf _ _).2 (hlast r' hr')
    · refine .inr ⟨fun r hr => ?_, hn⟩
      obtain ⟨r', -, hr'⟩ := (hS r).1 hr
      exact hnone r' hr'

theorem finds_union {S S₁ S₂ : Address → Prop} {otherwise inner : Option Node}
    (hS : ∀ q, S q ↔ S₁ q ∨ S₂ q) (horder : ∀ q₁ q₂, S₁ q₁ → S₂ q₂ → q₁.NoLater q₂)
    (hinner : ∀ n, inner = some n ↔ Finds S₁ node otherwise n) :
    Finds S node otherwise n ↔ Finds S₂ node inner n := by
  constructor
  · rintro (⟨q, ⟨hq, hlast⟩, rfl⟩ | ⟨hnone, hn⟩)
    · by_cases hlater : ∃ q₂, S₂ q₂
      · -- what is complete last is then among the later parts
        have h₂ : S₂ q := by
          obtain ⟨q₂, h₂⟩ := hlater
          refine ((hS q).1 hq).elim (fun h₁ => ?_) id
          rwa [(horder q q₂ h₁ h₂).antisymm (hlast q₂ ((hS q₂).2 (.inr h₂)))]
        exact .inl ⟨q, ⟨h₂, fun r hr => hlast r ((hS r).2 (.inr hr))⟩, rfl⟩
      · have h₁ : S₁ q := ((hS q).1 hq).resolve_right fun h => hlater ⟨q, h⟩
        refine .inr ⟨not_exists.1 hlater, (hinner _).2 (.inl ⟨q, ⟨h₁, fun r hr => ?_⟩, rfl⟩)⟩
        exact hlast r ((hS r).2 (.inl hr))
    · refine .inr ⟨fun r hr => hnone r ((hS r).2 (.inr hr)), (hinner n).2 (.inr ⟨fun r hr => ?_, hn⟩)⟩
      exact hnone r ((hS r).2 (.inl hr))
  · rintro (⟨q, ⟨hq, hlast⟩, rfl⟩ | ⟨hnone, hn⟩)
    · refine .inl ⟨q, ⟨(hS q).2 (.inr hq), fun r hr => ?_⟩, rfl⟩
      exact ((hS r).1 hr).elim (fun hr => horder r q hr hq) (hlast r)
    · have hfirst (r : Address) (hr : S r) : S₁ r := ((hS r).1 hr).resolve_right (hnone r)
      rcases (hinner n).1 hn with ⟨q, ⟨hq, hlast⟩, rfl⟩ | ⟨hnone', hn'⟩
      · exact .inl ⟨q, ⟨(hS q).2 (.inl hq), fun r hr => hlast r (hfirst r hr)⟩, rfl⟩
      · exact .inr ⟨fun r hr => hnone' r (hfirst r hr), hn'⟩

/-- At a place, a name stands for a node: that of the anchored part that was complete last before it, or
    else the one that the anchors give from before. -/
def Known (parts : List Part) (anchors : Node.Anchors) (node : Address → Node) (p : Address)
    (name : String) (n : Node) : Prop :=
  Finds (Ready parts name p) node (anchors.lookup name) n

/-- The anchors are those that are known at a place. -/
def Sees (parts : List Part) (anchors : Node.Anchors) (node : Address → Node) (p : Address)
    (table : Node.Anchors) : Prop :=
  ∀ name n, table.lookup name = some n ↔ Known parts anchors node p name n

theorem sees_first : Sees parts anchors node [0] anchors := by
  intro name n
  constructor
  · exact fun h => .inr ⟨fun _ => not_ready_first, h⟩
  · rintro (⟨q, ⟨hq, -⟩, -⟩ | ⟨-, h⟩)
    · exact absurd hq not_ready_first
    · exact h

theorem known_zero : Known (part :: rest) anchors node (0 :: p) name n ↔
    Known part.outline.parts anchors (node ∘ (0 :: ·)) p name n :=
  finds_map (fun _ _ => noLater_cons_cons 0) fun _ => ready_zero

theorem known_succ {i : Nat} (h : Sees [part] anchors node [1] table) :
    Known (part :: rest) anchors node ((i + 1) :: p) name n ↔
      Known rest table (node ∘ up) (i :: p) name n :=
  (finds_union (fun _ => ready_succ) (fun _ _ => noLater_of_after) (h name)).trans
    (finds_map (fun _ _ => noLater_up_up) fun _ => Iff.rfl)

/-- After a part, the anchors are those after its parts, and its own. -/
theorem sees_single
    (h : Sees part.outline.parts anchors (node ∘ (0 :: ·)) [part.outline.parts.length] table) :
    Sees [part] anchors node [1] (table.record part.outline (node [0])) := by
  intro name n
  have hwithin (n : Node) : table.lookup name = some n ↔ Finds (fun q => ∃ q', q = 0 :: q' ∧
      Ready part.outline.parts name [part.outline.parts.length] q') node (anchors.lookup name) n :=
    (h name n).trans (finds_map (fun _ _ => noLater_cons_cons 0) fun _ => Iff.rfl).symm
  refine Iff.trans ?_ (finds_union (fun _ => ready_single) ?_ hwithin).symm
  · by_cases hpart : ∃ content, part.outline = .anchored name content
    · obtain ⟨content, hcontent⟩ := hpart
      rw [hcontent, Node.Anchors.lookup_record_anchored]
      have hlast : IsLast (fun q => q = [0] ∧ ∃ content', Outline.anchored name content =
          .anchored name content') [0] := by
        refine ⟨⟨rfl, content, rfl⟩, ?_⟩
        rintro _ ⟨rfl, -⟩
        exact (noLater_cons_cons 0).2 (noLater_nil [])
      constructor
      · rintro ⟨⟩
        exact .inl ⟨[0], hlast, rfl⟩
      · rintro (⟨q, ⟨⟨rfl, -⟩, -⟩, rfl⟩ | ⟨hnone, -⟩)
        · rfl
        · exact absurd hlast.1 (hnone [0])
    · rw [Node.Anchors.lookup_record_of_ne _ _ hpart]
      constructor
      · exact fun hn => .inr ⟨fun q hq => hpart hq.2, hn⟩
      · rintro (⟨q, ⟨⟨-, hq⟩, -⟩, -⟩ | ⟨-, hn⟩)
        · exact absurd hq hpart
        · exact hn
  · rintro q₁ _ h₁ ⟨rfl, -⟩
    exact noLater_of_within h₁

/-! ### Trees -/

/-- The node that a part has is made of those of its own parts; that of a key is a scalar. -/
structure Fits (document : List Char) (standsFor : String → Node → Prop) (node : Address → Node)
    (p : Address) (part : Part) : Prop where
  made : Node.Makes document standsFor part.outline
    ((List.range part.outline.parts.length).map fun i => node (p ++ [i])) (node p)
  key : part.isKey = true → ∃ k, node p = .scalar k

theorem fits_zero :
    Fits document (Known (part :: rest) anchors node (0 :: p)) node (0 :: p) inner ↔
      Fits document (Known part.outline.parts anchors (node ∘ (0 :: ·)) p) (node ∘ (0 :: ·)) p inner :=
  ⟨fun h => ⟨h.made.imp fun _ _ => known_zero.1, h.key⟩,
    fun h => ⟨h.made.imp fun _ _ => known_zero.2, h.key⟩⟩

theorem fits_succ {i : Nat} (hsees : Sees [part] anchors node [1] table) :
    Fits document (Known (part :: rest) anchors node ((i + 1) :: p)) node ((i + 1) :: p) inner ↔
      Fits document (Known rest table (node ∘ up) (i :: p)) (node ∘ up) (i :: p) inner :=
  ⟨fun h => ⟨h.made.imp fun _ _ => (known_succ hsees).1, h.key⟩,
    fun h => ⟨h.made.imp fun _ _ => (known_succ hsees).2, h.key⟩⟩

/-- The nodes of a list of parts, from those of the first part and those of the others. -/
def joined (root : Node) (first others : Address → Node) : Address → Node
  | [] => root
  | 0 :: p => first p
  | (i + 1) :: p => others (i :: p)

theorem nodes_cons (node : Address → Node) (k : Nat) :
    (List.range (k + 1)).map (fun i => node [i]) =
      node [0] :: (List.range k).map fun i => (node ∘ up) [i] := by
  rw [List.range_succ_eq_map, List.map_cons, List.map_map]
  rfl

/-- Parts that are built have nodes that fit. -/
theorem exists_fits {nodes : List Node} {anchors' : Node.Anchors}
    (h : Node.BuildsAll document parts anchors nodes anchors') (root : Node) :
    ∃ node : Address → Node, node [] = root ∧ nodes = (List.range parts.length).map (fun i => node [i]) ∧
      (∀ p part, partAt? parts p = some part → Fits document (Known parts anchors node p) node p part) ∧
      Sees parts anchors node [parts.length] anchors' := by
  induction parts using Part.induction generalizing anchors nodes anchors' root with
  | nil =>
    cases h
    refine ⟨fun _ => root, rfl, rfl, fun p part hp => ?_, sees_first⟩
    cases p <;> cases hp
  | cons part rest ihparts ihrest =>
    cases h with
    | @cons _ _ _ _ _ n ns hn hkey hrest =>
      obtain ⟨within, table, hall, hmakes, rfl⟩ := Node.build_eq_ok.1 hn
      obtain ⟨first, rfl, rfl, hfirst, hwithin⟩ := ihparts hall n
      obtain ⟨others, rfl, rfl, hothers, hafter⟩ := ihrest hrest root
      -- both assignments were chosen with the right node at the empty address, so that they join
      let node := joined (others []) first others
      have hup : node ∘ up = others := by
        funext p
        cases p <;> rfl
      have hsees : Sees [part] anchors node [1] (table.record part.outline (node [0])) :=
        sees_single hwithin
      refine ⟨node, rfl, ?_, ?_, ?_⟩
      · rw [List.length_cons, nodes_cons, hup]
        rfl
      · rintro (_ | ⟨_ | i, _ | ⟨j, p⟩⟩) inner hp
        · cases hp
        · cases hp
          exact ⟨hmakes.imp fun name n => (sees_first name n).1, hkey⟩
        · exact fits_zero.2 (hfirst _ inner hp)
        all_goals
          rw [fits_succ hsees, hup]
          exact hothers _ inner hp
      · intro name n
        rw [hafter name n, List.length_cons, known_succ hsees, hup]
        rfl

/-- Parts with nodes that fit are built to these nodes. -/
theorem buildsAll_of_fits
    (h : ∀ p part, partAt? parts p = some part →
      Fits document (Known parts anchors node p) node p part) :
    ∃ anchors', Node.BuildsAll document parts anchors
        ((List.range parts.length).map fun i => node [i]) anchors' ∧
      Sees parts anchors node [parts.length] anchors' := by
  induction parts using Part.induction generalizing anchors node with
  | nil => exact ⟨anchors, .nil _, sees_first⟩
  | cons part rest ihparts ihrest =>
    obtain ⟨hmade, hkey⟩ := h [0] part rfl
    obtain ⟨table, hall, hwithin⟩ := ihparts fun p inner hp => fits_zero.1 (h _ inner (partAt?_zero hp))
    have hn : Node.build document part.outline anchors =
        .ok (node [0], table.record part.outline (node [0])) :=
      Node.build_eq_ok.2 ⟨_, table, hall, hmade.imp fun name n => (sees_first name n).2, rfl⟩
    have hsees := sees_single hwithin
    obtain ⟨anchors', hothers, hafter⟩ := ihrest fun p inner hp => by
      cases p with
      | nil => cases hp
      | cons i p => exact (fits_succ hsees).1 (h _ inner hp)
    refine ⟨anchors', ?_, fun name n => ?_⟩
    · rw [List.length_cons, nodes_cons]
      exact .cons hn hkey hothers
    · rw [hafter name n, List.length_cons, known_succ hsees]

/-- An alias that stands for nothing is what fails, when all parts that are complete before it fit. -/
theorem failsAll_of_unknown {isKey : Bool} {start : Nat} {written : String}
    (hp : partAt? parts p = some ⟨isKey, .alias start written⟩)
    (hunknown : ∀ n, ¬ Known parts anchors node p (Node.aliasName written) n)
    (hbefore : ∀ q part, partAt? parts q = some part → q.Before p →
      Fits document (Known parts anchors node q) node q part) :
    Node.FailsAll document (.malformed (.ofIndex document start)
      s!"unknown alias `{Node.aliasName written}`") parts anchors := by
  induction parts using Part.induction generalizing anchors node p with
  | nil => cases p <;> cases hp
  | cons part rest ihparts ihrest =>
    rcases p with _ | ⟨_ | i, p⟩
    · cases hp
    · refine .here ?_
      rcases p with _ | ⟨j, p⟩
      · cases hp
        have hnone : anchors.lookup (Node.aliasName written) = none :=
          Option.eq_none_iff_forall_ne_some.2 fun n hn => hunknown n ((sees_first _ n).1 hn)
        rw [Node.build, hnone]
      · have hwithin : partAt? part.outline.parts (j :: p) = some ⟨isKey, .alias start written⟩ := hp
        refine Node.build_of_failsAll (ihparts hwithin (fun n hn => hunknown n (known_zero.2 hn)) ?_)
        exact fun q inner hq hqp => fits_zero.1 (hbefore _ inner (partAt?_zero hq) (.inr ⟨rfl, hqp⟩))
    · -- the first part is complete before the alias, and so is all within it
      have hfirst (q : Address) (inner : Part) (hq : partAt? [part] q = some inner) :
          Fits document (Known [part] anchors node q) node q inner := by
        rcases q with _ | ⟨_ | j, q⟩
        · cases hq
        · exact fits_zero.2 (fits_zero.1 (hbefore _ inner hq (.inl (Nat.succ_pos i))))
        · cases hq
      obtain ⟨table, hall, hsees⟩ := buildsAll_of_fits hfirst
      have hother : partAt? rest (i :: p) = some ⟨isKey, .alias start written⟩ := hp
      rcases hall with _ | ⟨hn, hkey, ⟨⟩⟩
      refine .later hn hkey (ihrest hother (fun n hn => hunknown n ((known_succ hsees).2 hn)) ?_)
      intro q inner hq hqp
      rcases q with _ | ⟨j, q⟩
      · cases hq
      · refine (fits_succ hsees).1 (hbefore _ inner hq ?_)
        simpa [Before] using hqp

/-! ### Names in the text -/

theorem Outline.Opened.of_mem_entryParts {o : Outline} (h : o.Opened document) (hpart : part ∈ o.entryParts) :
    part.outline.Opened document := by
  cases h with
  | @pair start key value hkey hvalue =>
    cases hk : key.isAbsent with
    | true => simp [entryParts_keyless _ _ hk] at hpart
    | false =>
      cases hv : value.isAbsent with
      | true =>
        rw [entryParts_bare _ hk hv, List.mem_singleton] at hpart
        exact hpart ▸ hkey
      | false =>
        simp only [entryParts_full _ hk hv, List.mem_cons, List.not_mem_nil, or_false] at hpart
        rcases hpart with rfl | rfl
        · exact hkey
        · exact hvalue
  | _ => cases hpart

theorem Outline.Opened.of_mem_parts {o : Outline} (h : o.Opened document) (hpart : part ∈ o.parts) :
    part.outline.Opened document := by
  cases h with
  | sequence _ hitems =>
    obtain ⟨item, hitem, rfl⟩ := List.mem_map.1 hpart
    exact hitems item hitem
  | mapping _ hpairs =>
    obtain ⟨pair, hpair, hentry⟩ := List.mem_flatMap.1 hpart
    exact (hpairs pair hpair).of_mem_entryParts hentry
  | pair start hkey hvalue => exact (Opened.pair start hkey hvalue).of_mem_entryParts hpart
  | anchored _ hcontent => exact List.mem_singleton.1 hpart ▸ hcontent
  | _ => cases hpart

theorem opened_of_partAt? (hparts : ∀ part ∈ parts, part.outline.Opened document)
    (h : partAt? parts p = some inner) : inner.outline.Opened document := by
  induction p generalizing parts with
  | nil => cases h
  | cons i p ih =>
    obtain ⟨part, hpart, hinner⟩ := Option.bind_eq_some_iff.1 h
    have hopened := hparts part (List.mem_of_getElem? hpart)
    cases p with
    | nil => exact Option.some.inj hinner ▸ hopened
    | cons j p => exact ih (fun _ h => hopened.of_mem_parts h) hinner

/-! ### Documents -/

/-- At a place, a name stands for the node of the anchored part that was complete last before it. -/
def Names (parts : List Part) (node : Address → Node) (p : Address) (name : String) (n : Node) : Prop :=
  ∃ q, IsLast (Ready parts name p) q ∧ n = node q

/-- Every part has a node that is made of those of its parts, and an alias that of what it names. -/
def IsTree (document : List Char) (parts : List Part) (node : Address → Node) : Prop :=
  ∀ p part, partAt? parts p = some part → Fits document (Names parts node p) node p part

theorem known_nil : Known parts [] node p name n ↔ Names parts node p name n := by
  simp [Known, Finds, Names]

theorem fits_nil : Fits document (Known parts [] node p) node p part ↔
    Fits document (Names parts node p) node p part :=
  ⟨fun h => ⟨h.made.imp fun _ _ => known_nil.1, h.key⟩,
    fun h => ⟨h.made.imp fun _ _ => known_nil.2, h.key⟩⟩

theorem IsTree.alias_eq {isKey : Bool} {start : Nat} {written : String}
    (h : IsTree document parts node) (hp : partAt? parts p = some ⟨isKey, .alias start written⟩)
    (hq : IsLast (Ready parts (Node.aliasName written) p) q) : node p = node q := by
  obtain ⟨hmade, -⟩ := h p _ hp
  cases hmade with
  | copy hnames =>
    obtain ⟨q', hq', heq⟩ := hnames
    rw [heq, (hq.2 q' hq'.1).antisymm (hq'.2 q hq.1)]

theorem Node.build_eq_ok_iff_isTree {d : Document} {root : Node} :
    (∃ anchors, build document d.content [] = .ok (root, anchors)) ↔
      ∃ node, IsTree document d.parts node ∧ node [0] = root := by
  constructor
  · rintro ⟨anchors, h⟩
    have hall : BuildsAll document d.parts [] [root] anchors := .cons h (by simp) (.nil _)
    obtain ⟨node, -, hnodes, hfits, -⟩ := exists_fits hall root
    exact ⟨node, fun p part hp => fits_nil.1 (hfits p part hp), (List.cons.inj hnodes).1.symm⟩
  · rintro ⟨node, htree, rfl⟩
    obtain ⟨anchors, hall, -⟩ := buildsAll_of_fits fun p part hp => fits_nil.2 (htree p part hp)
    rcases hall with _ | ⟨hn, -, ⟨⟩⟩
    exact ⟨_, hn⟩

/-- The document is the first one of a text, has content, and no directive of unknown kind. -/
structure Document.Heads (d : Document) (text : String) : Prop where
  first : ∃ ds, documents? text.toList = some (d :: ds)
  reserved : d.reserved = none
  content : d.content.isAbsent = false

namespace Node

variable {text : String} {d : Document} {isKey : Bool} {start : Nat} {written : String}

theorem parse_eq_build (h : d.Heads text) : parse text = (build text.toList d.content []).map (·.1) := by
  obtain ⟨⟨ds, hds⟩, hreserved, hcontent⟩ := h
  rw [parse]
  simp only [hds, ofDocument, hreserved]
  split
  · rename_i habsent
    simp [habsent, Outline.isAbsent] at hcontent
  · rfl

theorem parse_eq_ok_iff_isTree (h : d.Heads text) (root : Node) :
    parse text = .ok root ↔ ∃ node, IsTree text.toList d.parts node ∧ node [0] = root := by
  rw [parse_eq_build h, ← build_eq_ok_iff_isTree]
  cases h : build text.toList d.content [] with
  | error e => simp [Except.map]
  | ok r => simp [Except.map, Prod.ext_iff]

/-- A document that is not accepted is faulty at a position. -/
theorem exists_malformed (h : d.Heads text) (hrefused : ∀ root, parse text ≠ .ok root) :
    ∃ position problem, parse text = .error (.malformed position problem) := by
  rw [parse_eq_build h] at hrefused ⊢
  cases hb : build text.toList d.content [] with
  | error e =>
    cases e with
    | invalidYaml => exact absurd hb (build_ne_invalidYaml _ _)
    | malformed position problem => exact ⟨position, problem, rfl⟩
  | ok r => exact absurd (by rw [hb]; rfl) (hrefused r.1)

theorem parse_of_not_ready (h : d.Heads text)
    (hp : partAt? d.parts p = some ⟨isKey, .alias start written⟩)
    (hnone : ∀ q, ¬ Ready d.parts (aliasName written) p q)
    (hbefore : ∀ q part, partAt? d.parts q = some part → q.Before p →
      Fits text.toList (Names d.parts node q) node q part) :
    parse text = .error (.malformed (.ofIndex text.toList start)
      s!"unknown alias `{aliasName written}`") := by
  have hunknown (n : Node) : ¬ Known d.parts [] node p (aliasName written) n := by
    intro hn
    obtain ⟨q, hq, -⟩ := known_nil.1 hn
    exact hnone q hq.1
  have hfails := failsAll_of_unknown hp hunknown fun q part hq hqp =>
    fits_nil.2 (hbefore q part hq hqp)
  rcases hfails with hbuild | ⟨-, -, ⟨⟩⟩
  rw [parse_eq_build h, hbuild]
  rfl

/-- An alias whose name does not begin with an asterisk looks for that name. -/
theorem aliasName_of_head? (h : written.toList.head? ≠ some '*') : aliasName written = written := by
  have hdrop : written.toList.dropWhile (· = '*') = written.toList := by
    cases hw : written.toList with
    | nil => rfl
    | cons c cs =>
      have hc : c ≠ '*' := by simpa [hw] using h
      simp [hc]
  rw [aliasName, hdrop, String.ofList_toList]

theorem opened_at (h : d.Heads text) (hp : partAt? d.parts p = some part) :
    part.outline.Opened text.toList := by
  obtain ⟨ds, hds⟩ := h.first
  refine opened_of_partAt? (List.forall_mem_singleton.2 ?_) hp
  exact documents?_opened hds d (List.mem_cons_self ..)

/-- A document is accepted exactly if it has a tree, in which every alias has the node of the anchored
    part with its name, less asterisks in front, that was complete last before it. When there is no such
    part the document is refused, and at the alias if all that is complete before it fits. -/
theorem alias_copies_last_anchor (text : String) (d : Document) (h : d.Heads text) :
    (∀ root, parse text = .ok root ↔ ∃ node, IsTree text.toList d.parts node ∧ node [0] = root) ∧
    (∀ name q, Anchored d.parts name q → ∃ start, NamedAt text.toList '&' start name) ∧
    ∀ p isKey start written, partAt? d.parts p = some ⟨isKey, .alias start written⟩ →
      NamedAt text.toList '*' start written ∧
      (written.toList.head? ≠ some '*' → aliasName written = written) ∧
      (∀ q, Ready d.parts (aliasName written) p q → ¬ q <+: p) ∧
      ((∃ q, Ready d.parts (aliasName written) p q) →
        ∃ q, IsLast (Ready d.parts (aliasName written) p) q ∧
          ∀ node, IsTree text.toList d.parts node → node p = node q) ∧
      ((∀ q, ¬ Ready d.parts (aliasName written) p q) →
        (∃ position problem, parse text = .error (.malformed position problem)) ∧
        ∀ node, (∀ q part, partAt? d.parts q = some part → q.Before p →
            Fits text.toList (Names d.parts node q) node q part) →
          parse text = .error (.malformed (.ofIndex text.toList start)
            s!"unknown alias `{aliasName written}`")) := by
  refine ⟨parse_eq_ok_iff_isTree h, ?_, fun p isKey start written hp =>
    ⟨?_, aliasName_of_head?, fun q hq => hq.2.not_within, fun hready => ?_, fun hnone => ⟨?_, ?_⟩⟩⟩
  · rintro name q ⟨isKey, content, hq⟩
    cases opened_at h hq with
    | anchored hname => exact hname
  · cases opened_at h hp with
    | «alias» hname => exact hname
  · obtain ⟨q, hq⟩ := hasLast_ready _ _ _ hready
    exact ⟨q, hq, fun node htree => htree.alias_eq hp hq⟩
  · refine exists_malformed h fun root hroot => ?_
    obtain ⟨node, htree, -⟩ := (parse_eq_ok_iff_isTree h root).1 hroot
    cases (htree p _ hp).made with
    | copy hnames =>
      obtain ⟨q, hq, -⟩ := hnames
      exact hnone q hq.1
  · exact fun node hbefore => parse_of_not_ready h hp hnone hbefore

/-- An anchor within the content of another with its name, and aliases in that content and after it. -/
def nested : Document :=
  ⟨0, none, .sequence 0 [.anchored "x" (.sequence 5 [.anchored "x" (.scalar .plain 10 11), .alias 13 "x"]),
    .alias 20 "x"]⟩

/-- An alias in front of its anchor. -/
def early : Document :=
  ⟨0, none, .sequence 0 [.alias 2 "y", .anchored "y" (.scalar .plain 10 11)]⟩

/-- The alias in the content is a copy of the inner node, and the one after it of the outer node; the
    one in front of its anchor is reported. -/
theorem nested_copied_early_reported :
    nested.Heads "- &x [ &x 1, *x ]\n- *x\n" ∧
    (∃ node root, parse "- &x [ &x 1, *x ]\n- *x\n" = .ok root ∧ node [0] = root ∧
      IsTree "- &x [ &x 1, *x ]\n- *x\n".toList nested.parts node ∧
      node [0, 0, 0, 1] = node [0, 0, 0, 0] ∧ node [0, 1] = node [0, 0]) ∧
    early.Heads "- *y\n- &y 1\n" ∧
    parse "- *y\n- &y 1\n" = .error (.malformed ⟨1, 3⟩ "unknown alias `y`") := by
  have hnested : nested.Heads "- &x [ &x 1, *x ]\n- *x\n" := ⟨⟨[], by cbv⟩, rfl, rfl⟩
  have hearly : early.Heads "- *y\n- &y 1\n" := ⟨⟨[], by cbv⟩, rfl, rfl⟩
  refine ⟨hnested, ?_, hearly, ?_⟩
  · obtain ⟨hparse, -, hcopies⟩ := alias_copies_last_anchor _ nested hnested
    have haccepted : (parse "- &x [ &x 1, *x ]\n- *x\n").toBool = true := by decide +kernel
    cases hroot : parse "- &x [ &x 1, *x ]\n- *x\n" with
    | error e =>
      rw [hroot] at haccepted
      cases haccepted
    | ok root =>
      obtain ⟨node, htree, hnode⟩ := (hparse root).1 hroot
      have hcopy (p : Address) (i start : Nat)
          (hp : partAt? nested.parts (p ++ [i + 1]) = some ⟨false, .alias start "x"⟩)
          (hq : Ready nested.parts "x" (p ++ [i + 1]) (p ++ [i])) :
          node (p ++ [i + 1]) = node (p ++ [i]) := by
        obtain ⟨-, -, -, hlast, -⟩ := hcopies _ _ _ _ hp
        obtain ⟨q, hlast, heq⟩ := hlast ⟨_, hq⟩
        rw [heq node htree, (hlast.1.2.noLater_concat).antisymm (hlast.2 _ hq)]
      refine ⟨node, root, rfl, hnode, htree, ?_, ?_⟩
      · exact hcopy [0, 0, 0] 0 13 rfl ⟨⟨false, _, rfl⟩, by simp [Before]⟩
      · exact hcopy [0] 0 20 rfl ⟨⟨false, _, rfl⟩, by simp [Before]⟩
  · obtain ⟨-, -, hcopies⟩ := alias_copies_last_anchor _ early hearly
    obtain ⟨-, -, -, -, hreport⟩ := hcopies [0, 0] false 2 "y" rfl
    have hfirst (q : Address) : ¬ q.Before [0, 0] := by
      rcases q with _ | ⟨i, _ | ⟨j, _ | ⟨k, q⟩⟩⟩ <;> simp [Before]
    have hnone (q : Address) : ¬ Ready early.parts (aliasName "y") [0, 0] q := fun hq => hfirst q hq.2
    exact (hreport hnone).2 (fun _ => .null .start) fun q part _ hq => absurd hq (hfirst q)

/-- Asterisks at the front of a name belong to the anchor, and not to the alias. -/
theorem starred_anchor_not_found :
    ∃ d : Document, d.Heads "- &*x 1\n- **x\n" ∧
      partAt? d.parts [0, 1] = some ⟨false, .alias 10 "*x"⟩ ∧ Ready d.parts "*x" [0, 1] [0, 0] ∧
      parse "- &*x 1\n- **x\n" = .error (.malformed ⟨2, 3⟩ "unknown alias `x`") := by
  refine ⟨⟨0, none, .sequence 0 [.anchored "*x" (.scalar .plain 6 7), .alias 10 "*x"]⟩,
    ⟨⟨[], by cbv⟩, rfl, rfl⟩, rfl, ⟨⟨false, _, rfl⟩, by simp [Before]⟩, ?_⟩
  cbv

end Node

end WorkflowAudit.Yaml
