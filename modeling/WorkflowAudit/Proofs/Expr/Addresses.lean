import WorkflowAudit.Proofs.Expr.SourceOrder

/-!
Addresses in an expression. A node is found by the numbers of the parts on the way to it, so that equal
nodes in different places are told apart. Main statement: the variables of an expression that was read
begin at different offsets if they stand at different addresses, since each has a token of its own.
-/

namespace WorkflowAudit

namespace Expr

/-- The node at an address; nothing if the address leads out of the expression. -/
def part? (root : Expr) : List Nat → Option Expr
  | [] => some root
  | i :: a => root.children[i]?.bind (·.part? a)

theorem part?_cons {root e : Expr} {i : Nat} {a : List Nat} :
    root.part? (i :: a) = some e ↔ ∃ child, root.children[i]? = some child ∧ child.part? a = some e := by
  rw [part?, Option.bind_eq_some_iff]

theorem part?_append (root : Expr) (a b : List Nat) :
    root.part? (a ++ b) = (root.part? a).bind (·.part? b) := by
  induction a generalizing root with
  | nil => rfl
  | cons i a ih =>
    rw [List.cons_append, part?, part?]
    cases root.children[i]? with
    | none => rfl
    | some child => exact ih child

theorem part?_append_of_eq {root e : Expr} {a : List Nat} (h : root.part? a = some e) (b : List Nat) :
    root.part? (a ++ b) = e.part? b := by
  rw [part?_append, h]
  rfl

theorem mem_preorder_of_part? {root e : Expr} {a : List Nat} (h : root.part? a = some e) :
    e ∈ root.preorder := by
  induction a generalizing root with
  | nil =>
    cases h
    exact self_mem_preorder _
  | cons i a ih =>
    obtain ⟨child, hchild, h⟩ := part?_cons.1 h
    rw [preorder_eq_cons]
    exact List.mem_cons_of_mem _ (mem_preorderAll.2 ⟨child, List.mem_of_getElem? hchild, ih h⟩)

/-- The node at an address in one of several expressions, whose number comes first. -/
def partOf? (es : List Expr) : List Nat → Option Expr
  | [] => none
  | i :: a => es[i]?.bind (·.part? a)

theorem mem_preorderAll_of_partOf? {es : List Expr} {e : Expr} {a : List Nat}
    (h : partOf? es a = some e) : e ∈ preorderAll es := by
  cases a with
  | nil => cases h
  | cons i a =>
    obtain ⟨child, hchild, h⟩ := Option.bind_eq_some_iff.1 h
    exact mem_preorderAll.2 ⟨child, List.mem_of_getElem? hchild, mem_preorder_of_part? h⟩

/-! ### Variables have tokens of their own -/

/-- Variables of the expressions that begin at the same offset stand at the same address. -/
def VarsApart (es : List Expr) : Prop :=
  ∀ a b o o' name name', partOf? es a = some (.var o name) → partOf? es b = some (.var o' name') →
    o.offset = o'.offset → a = b

namespace VarsApart

variable {us vs : List Token} {t : Token} {e : Expr} {es : List Expr}

theorem nil : VarsApart [] := by
  intro a b o o' name name' ha
  cases a <;> simp [partOf?] at ha

/-- An expression in front of others, with tokens of its own in front of theirs. -/
theorem cons (hsorted : Token.Sorted (us ++ t :: vs)) (he : InOrder us [e]) (hes : InOrder vs es)
    (hfirst : VarsApart [e]) (hrest : VarsApart es) : VarsApart (e :: es) := by
  intro a b o o' name name' ha hb hoffset
  -- a variable of the first expression begins before each variable of the others
  have hlt : ∀ {a b o o' name name'}, partOf? [e] a = some (.var o name) →
      partOf? es b = some (.var o' name') → o.offset < o'.offset := fun ha hb =>
    hsorted.lt (he.begins _ (mem_preorderAll_of_partOf? ha)) (hes.begins _ (mem_preorderAll_of_partOf? hb))
  rcases a with _ | ⟨_ | i, a⟩
  · cases ha
  · rcases b with _ | ⟨_ | j, b⟩
    · cases hb
    · exact hfirst (0 :: a) (0 :: b) o o' name name' ha hb hoffset
    · exact absurd hoffset (Nat.ne_of_lt (hlt (a := 0 :: a) (b := j :: b) ha hb))
  · rcases b with _ | ⟨_ | j, b⟩
    · cases hb
    · exact absurd hoffset.symm (Nat.ne_of_lt (hlt (a := 0 :: b) (b := i :: a) hb ha))
    · have := hrest (i :: a) (j :: b) o o' name name' ha hb hoffset
      cases this
      rfl

/-- A node over parts whose variables stand apart. -/
theorem node (h : VarsApart e.children) (hvar : ∀ o name, e ≠ .var o name) : VarsApart [e] := by
  intro a b o o' name name' ha hb hoffset
  -- the address goes on below the node, since the node is no variable
  have hbelow : ∀ {a o name}, partOf? [e] a = some (.var o name) →
      ∃ i a', a = 0 :: i :: a' ∧ partOf? e.children (i :: a') = some (.var o name) := by
    intro a o name ha
    rcases a with _ | ⟨_ | i, _ | ⟨j, a⟩⟩
    · cases ha
    · exact absurd (Option.some.inj ha) (hvar o name)
    · exact ⟨j, a, rfl, ha⟩
    · cases ha
    · cases ha
  obtain ⟨i, a, rfl, hchild⟩ := hbelow ha
  obtain ⟨j, b, rfl, hchild'⟩ := hbelow hb
  rw [h _ _ o o' name name' hchild hchild' hoffset]

theorem leaf (hchildren : e.children = []) : VarsApart [e] := by
  intro a b o o' name name' ha hb _
  have hroot : ∀ {a x}, partOf? [e] a = some x → a = [0] := by
    intro a x ha
    rcases a with _ | ⟨_ | i, _ | ⟨j, a⟩⟩ <;> simp [partOf?, part?, hchildren] at ha ⊢
  rw [hroot ha, hroot hb]

end VarsApart

end Expr

/-- The variables of what stands in sorted tokens stand apart. -/
theorem Stands.varsApart {p : Phrase} {ts : List Token} (h : Stands p ts)
    (hsorted : Token.Sorted ts) : Expr.VarsApart p.exprs := by
  induction h with
  | @binary l op lhs rhs first t us vs hl hfirst ht hlhs hrhs ihl ihr =>
    have hright := hrhs.inOrder hsorted.right
    rw [Phrase.exprs_operand] at ihr hright
    exact .node (.cons hsorted (hlhs.inOrder hsorted.left) hright (ihl hsorted.left)
      (ihr hsorted.right)) (by simp)
  | operand _ ih =>
    rw [Phrase.exprs_operand] at ih
    exact ih hsorted
  | not _ _ ih => exact .node (ih (List.pairwise_cons.1 hsorted).2) (by simp)
  | chain _ ih => exact ih hsorted
  | property _ _ _ ih | filter _ _ _ ih => exact .node (ih hsorted.left) (by simp)
  | @index t u e k us vs ht hu h hk ihe ihk =>
    have hvs := (List.pairwise_append.1 hsorted.right).1
    have hkey := (hk.inOrder hvs).mono (List.subset_append_left vs [u])
    exact .node (.cons hsorted (h.inOrder hsorted.left) hkey (ihe hsorted.left) (ihk hvs)) (by simp)
  | parens _ _ _ ih => exact ih (List.pairwise_append.1 (List.pairwise_cons.1 hsorted).2).1
  | null | true | false | number | string | var => exact .leaf rfl
  | call _ _ _ _ ih =>
    have hrest := (List.pairwise_cons.1 (List.pairwise_cons.1 hsorted).2).2
    exact .node (ih (List.pairwise_append.1 hrest).1) (by simp)
  | noArgs => exact .nil
  | lastArg _ ih => exact ih hsorted
  | moreArgs _ he hes ihe ihes =>
    exact .cons hsorted (he.inOrder hsorted.left) (hes.inOrder hsorted.right) (ihe hsorted.left)
      (ihes hsorted.right)

namespace Expr

/-- Variables of what is read that begin at the same offset stand at the same address. -/
theorem address_eq_of_offset_eq {text : String} {root : Expr}
    (h : parse text = .ok root ∨ ∃ n, parseFragment text = .ok (root, n)) {a b : List Nat}
    {o o' : Origin} {name name' : String} (ha : root.part? a = some (.var o name))
    (hb : root.part? b = some (.var o' name')) (hoffset : o.offset = o'.offset) : a = b := by
  obtain ⟨ending, rest, hread⟩ := exists_parseUpTo h
  obtain ⟨ts, hscan, hstands⟩ := stands_of_parseUpTo hread
  have := hstands.varsApart hscan.sorted (0 :: a) (0 :: b) o o' name name' ha hb hoffset
  cases this
  rfl

/-- A chain of accessors in what is read begins where its head begins. -/
theorem origin_eq_chainHead {text : String} {root e : Expr}
    (h : parse text = .ok root ∨ ∃ n, parseFragment text = .ok (root, n)) (he : e ∈ root.preorder) :
    e.origin = e.chainHead.origin := by
  obtain ⟨ending, rest, hread⟩ := exists_parseUpTo h
  obtain ⟨ts, horder, -⟩ := inOrder_of_parseUpTo hread
  exact (horder.parts e (by simpa [preorderAll] using he)).head

end Expr

end WorkflowAudit
