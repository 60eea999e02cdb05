import WorkflowAudit.Proofs.Expr.Places

/-!
The order of the nodes of an expression. A node begins with one of its own tokens, and no later than its
parts, which follow one another in the text. Main statement: every origin of an expression that was read
is the line, column and offset of a visible character, and a walk that meets each node before its parts
meets them in the order of the text.
-/

namespace WorkflowAudit

namespace Expr

mutual

/-- The nodes of an expression, each before its parts. -/
def preorder : Expr → List Expr
  | .literal o v => [.literal o v]
  | .var o name => [.var o name]
  | .property o r name => .property o r name :: r.preorder
  | .filter o r => .filter o r :: r.preorder
  | .index o e k => .index o e k :: (e.preorder ++ k.preorder)
  | .call o f args => .call o f args :: preorderAll args
  | .binary o op l r => .binary o op l r :: (l.preorder ++ r.preorder)
  | .not o e => .not o e :: e.preorder

/-- The nodes of several expressions, one expression after the other. -/
def preorderAll : List Expr → List Expr
  | [] => []
  | e :: es => e.preorder ++ preorderAll es

end

theorem preorder_eq_cons (e : Expr) : e.preorder = e :: preorderAll e.children := by
  cases e <;> simp [preorder, preorderAll, children]

theorem mem_preorderAll {part : Expr} {es : List Expr} :
    part ∈ preorderAll es ↔ ∃ e ∈ es, part ∈ e.preorder := by
  induction es with
  | nil => simp [preorderAll]
  | cons e es ih => simp [preorderAll, ih]

theorem self_mem_preorder (e : Expr) : e ∈ e.preorder := by
  rw [preorder_eq_cons]
  exact List.mem_cons_self ..

/-- What a chain of accessors is built on. -/
def chainHead : Expr → Expr
  | .property _ r _ | .filter _ r | .index _ r _ => r.chainHead
  | e => e

end Expr

/-! ### Order among tokens -/

/-- The tokens stand in the order of their offsets. -/
def Token.Sorted (ts : List Token) : Prop :=
  ts.Pairwise fun t u => t.origin.offset < u.origin.offset

/-- The expression begins with one of the tokens, which is its name if it is a variable. -/
def Expr.BeginsIn (ts : List Token) (e : Expr) : Prop :=
  ∃ t ∈ ts, t.origin = e.origin ∧ ∀ o name, e = .var o name → t.lexeme = .name name

theorem Expr.BeginsIn.mono {us ts : List Token} {e : Expr} (h : e.BeginsIn us) (hsub : us ⊆ ts) :
    e.BeginsIn ts := by
  obtain ⟨t, ht, ho⟩ := h
  exact ⟨t, hsub ht, ho⟩

namespace Token.Sorted

variable {us vs : List Token} {t first : Token} {a b : Expr}

theorem left (h : Sorted (us ++ t :: vs)) : Sorted us :=
  (List.pairwise_append.1 h).1

theorem right (h : Sorted (us ++ t :: vs)) : Sorted vs :=
  (List.pairwise_cons.1 (List.pairwise_append.1 h).2.1).2

/-- What begins among the earlier tokens begins before what begins among the later ones. -/
theorem lt (h : Sorted (us ++ t :: vs)) (ha : a.BeginsIn us) (hb : b.BeginsIn vs) :
    a.origin.offset < b.origin.offset := by
  obtain ⟨u, hu, hua, -⟩ := ha
  obtain ⟨v, hv, hvb, -⟩ := hb
  rw [← hua, ← hvb]
  exact (List.pairwise_append.1 h).2.2 u hu v (List.mem_cons_of_mem _ hv)

/-- Nothing begins before the first token. -/
theorem head_le (h : Sorted us) (hfirst : us.head? = some first) (ha : a.BeginsIn us) :
    first.origin.offset ≤ a.origin.offset := by
  obtain ⟨u, hu, hua, -⟩ := ha
  rw [← hua]
  cases us with
  | nil => cases hu
  | cons x us =>
    cases hfirst
    rcases List.mem_cons.1 hu with rfl | hu
    · exact Nat.le_refl _
    · exact Nat.le_of_lt ((List.pairwise_cons.1 h).1 u hu)

end Token.Sorted

/-- A chain of accessors begins with its head, no part begins before its node, and the parts begin one
    after the other. -/
structure Expr.PartsInOrder (e : Expr) : Prop where
  head : e.origin = e.chainHead.origin
  after : ∀ part ∈ e.children, e.origin.offset ≤ part.origin.offset
  apart : e.children.Pairwise fun a b => a.origin.offset < b.origin.offset

/-- The nodes of the expressions begin with the tokens and follow one another as in the text. -/
structure Expr.InOrder (ts : List Token) (es : List Expr) : Prop where
  begins : ∀ e ∈ preorderAll es, e.BeginsIn ts
  parts : ∀ e ∈ preorderAll es, e.PartsInOrder
  walk : (preorderAll es).Pairwise fun a b => a.origin.offset ≤ b.origin.offset
  apart : es.Pairwise fun a b => a.origin.offset < b.origin.offset

namespace Expr.InOrder

variable {us vs ts : List Token} {t : Token} {e a : Expr} {es : List Expr}

theorem nil (ts : List Token) : InOrder ts [] where
  begins := by simp [preorderAll]
  parts := by simp [preorderAll]
  walk := by simp [preorderAll]
  apart := by simp

theorem mono (h : InOrder us es) (hsub : us ⊆ ts) : InOrder ts es :=
  { h with begins := fun e he => (h.begins e he).mono hsub }

theorem begins_self (h : InOrder ts (e :: es)) : e.BeginsIn ts :=
  h.begins e (List.mem_append_left _ e.self_mem_preorder)

/-- An expression in front of others, with tokens of its own in front of theirs. -/
theorem cons (h : Token.Sorted (us ++ t :: vs)) (he : InOrder us [e]) (hes : InOrder vs es) :
    InOrder (us ++ t :: vs) (e :: es) := by
  have hnodes : preorderAll (e :: es) = preorderAll [e] ++ preorderAll es := by
    simp [preorderAll]
  have hus : us ⊆ us ++ t :: vs := List.subset_append_left ..
  have hvs : vs ⊆ us ++ t :: vs := fun v hv => by simp [hv]
  refine ⟨?_, ?_, ?_, List.pairwise_cons.2 ⟨fun b hb => ?_, hes.apart⟩⟩
  · rw [hnodes]
    exact List.forall_mem_append.2 ⟨(he.mono hus).begins, (hes.mono hvs).begins⟩
  · rw [hnodes]
    exact List.forall_mem_append.2 ⟨he.parts, hes.parts⟩
  · rw [hnodes, List.pairwise_append]
    refine ⟨he.walk, hes.walk, fun a ha b hb => ?_⟩
    exact Nat.le_of_lt (h.lt (he.begins a ha) (hes.begins b hb))
  · exact h.lt he.begins_self (hes.begins b (mem_preorderAll.2 ⟨b, hb, b.self_mem_preorder⟩))

/-- A node over parts that are in order. -/
theorem node (h : InOrder ts e.children) (hbegins : e.BeginsIn ts)
    (hhead : e.origin = e.chainHead.origin)
    (hfirst : ∀ a ∈ preorderAll e.children, e.origin.offset ≤ a.origin.offset) :
    InOrder ts [e] := by
  have hnodes : preorderAll [e] = e :: preorderAll e.children := by
    rw [preorderAll, preorderAll, List.append_nil, preorder_eq_cons]
  have hafter : ∀ part ∈ e.children, e.origin.offset ≤ part.origin.offset := fun part hpart =>
    hfirst part (mem_preorderAll.2 ⟨part, hpart, part.self_mem_preorder⟩)
  refine ⟨?_, ?_, ?_, List.pairwise_singleton ..⟩
  · rw [hnodes]
    exact List.forall_mem_cons.2 ⟨hbegins, h.begins⟩
  · rw [hnodes]
    exact List.forall_mem_cons.2 ⟨⟨hhead, hafter, h.apart⟩, h.parts⟩
  · rw [hnodes]
    exact List.pairwise_cons.2 ⟨hfirst, h.walk⟩

/-- A node without parts. -/
theorem leaf (hchildren : e.children = []) (hhead : e.chainHead = e) (hbegins : e.BeginsIn ts) :
    InOrder ts [e] := by
  refine node (hchildren ▸ nil ts) hbegins (by rw [hhead]) ?_
  simp [hchildren, preorderAll]

/-- A node that begins with the first of its tokens. -/
theorem opened (first : Token) (hsorted : Token.Sorted ts) (hfirst : ts.head? = some first)
    (h : InOrder ts e.children) (ho : first.origin = e.origin)
    (hvar : ∀ o name, e ≠ .var o name) (hhead : e.chainHead = e) : InOrder ts [e] := by
  refine node h ⟨first, List.mem_of_head? hfirst, ho, fun o name he => absurd he (hvar o name)⟩
    (by rw [hhead]) fun a ha => ?_
  rw [← ho]
  exact hsorted.head_le hfirst (h.begins a ha)

/-- No node of the first expression, nor of the others, begins before it. -/
theorem le_of_mem (h : InOrder ts (e :: es)) (ha : a ∈ preorderAll (e :: es)) :
    e.origin.offset ≤ a.origin.offset := by
  have hwalk := h.walk
  rw [preorderAll, preorder_eq_cons, List.cons_append] at ha hwalk
  rcases List.mem_cons.1 ha with rfl | ha
  · exact Nat.le_refl _
  · exact (List.pairwise_cons.1 hwalk).1 a ha

/-- A link of a chain begins where what it is applied to begins. -/
theorem link {r : Expr} (h : InOrder ts (r :: es)) (hchildren : e.children = r :: es)
    (ho : e.origin = r.origin) (hhead : e.chainHead = r.chainHead)
    (hvar : ∀ o name, e ≠ .var o name) : InOrder ts [e] := by
  obtain ⟨t, ht, htr, -⟩ := h.begins_self
  have hr : r ∈ preorderAll (r :: es) := List.mem_append_left _ r.self_mem_preorder
  refine node (hchildren ▸ h) ⟨t, ht, htr.trans ho.symm, fun o name he => absurd he (hvar o name)⟩
    (by rw [hhead, ho, (h.parts r hr).head]) fun a ha => ?_
  rw [ho]
  exact h.le_of_mem (hchildren ▸ ha)

end Expr.InOrder

/-- The expressions that a phrase is made of. -/
def Phrase.exprs : Phrase → List Expr
  | .level _ e | .unary e | .chain e => [e]
  | .args es => es

@[simp] theorem Phrase.exprs_operand (l : Level) (e : Expr) :
    (Phrase.operand l e).exprs = [e] := by
  cases l <;> rfl

/-- What stands in sorted tokens is in order. -/
theorem Stands.inOrder {p : Phrase} {ts : List Token} (h : Stands p ts) (hsorted : Token.Sorted ts) :
    Expr.InOrder ts p.exprs := by
  induction h with
  | @binary l op lhs rhs first t us vs hl hfirst ht hlhs hrhs ihl ihr =>
    rw [Phrase.exprs_operand] at ihr
    refine .opened first hsorted ?_ (.cons hsorted (ihl hsorted.left) (ihr hsorted.right))
      rfl (by simp) rfl
    rw [List.head?_append, hfirst]
    rfl
  | operand _ ih =>
    rw [Phrase.exprs_operand] at ih
    exact ih hsorted
  | @not t e us ht h ih =>
    have hus := ih (List.pairwise_cons.1 hsorted).2
    exact .opened t hsorted rfl (hus.mono (List.subset_cons_self ..)) rfl (by simp) rfl
  | chain _ ih => exact ih hsorted
  | @property t u r name us ht hu h ih =>
    have hus := (ih hsorted.left).mono (List.subset_append_left us [t, u])
    exact hus.link rfl rfl rfl (by simp)
  | @filter t u r us ht hu h ih =>
    have hus := (ih hsorted.left).mono (List.subset_append_left us [t, u])
    exact hus.link rfl rfl rfl (by simp)
  | @index t u e k us vs ht hu h hk ihe ihk =>
    have hvs := ihk (List.pairwise_append.1 hsorted.right).1
    exact (Expr.InOrder.cons hsorted (ihe hsorted.left)
      (hvs.mono (List.subset_append_left vs [u]))).link rfl rfl rfl (by simp)
  | @parens t u e us ht hu h ih =>
    have hus := ih (List.pairwise_append.1 (List.pairwise_cons.1 hsorted).2).1
    exact hus.mono fun v hv => by simp [hv]
  | null | true | false | number | string =>
    exact .leaf rfl rfl ⟨_, List.mem_singleton.2 rfl, rfl, by simp⟩
  | @var t name ht hname =>
    refine .leaf rfl rfl ⟨t, List.mem_singleton.2 rfl, rfl, fun o name' he => ?_⟩
    cases he
    exact ht
  | @call t u v f es us ht hu hv h ih =>
    have hrest := (List.pairwise_cons.1 (List.pairwise_cons.1 hsorted).2).2
    have hus := ih (List.pairwise_append.1 hrest).1
    exact .opened t hsorted rfl (hus.mono fun w hw => by simp [hw]) rfl (by simp) rfl
  | noArgs => exact .nil _
  | lastArg _ ih => exact ih hsorted
  | moreArgs _ _ _ ihe ihes => exact .cons hsorted (ihe hsorted.left) (ihes hsorted.right)

/-! ### Origins in the text -/

/-- The origin is that of the character with index `i`: its line is one more than the number of line
    feeds before, its column one more than the number of characters after the last of them, and its
    offset the number of bytes before. -/
structure Origin.IsOf (text : List Char) (i : Nat) (o : Origin) : Prop where
  line : o.line = (text.take i).count '\n' + 1
  column : o.column = ((text.take i).reverse.takeWhile (· ≠ '\n')).length + 1
  offset : o.offset = Text.byteSize (text.take i)

theorem Origin.advanceAll_start (cs : List Char) : Origin.start.advanceAll cs =
    ⟨cs.count '\n' + 1, (cs.reverse.takeWhile (· ≠ '\n')).length + 1, Text.byteSize cs⟩ := by
  induction cs using List.reverseRecOn with
  | nil => rfl
  | append_singleton cs c ih =>
    have hsize : Text.byteSize [c] = c.utf8Size := rfl
    have hlast : Origin.start.advanceAll (cs ++ [c]) = (Origin.start.advanceAll cs).advance c := by
      simp [advanceAll]
    rw [hlast, ih, advance, Text.byteSize_append, hsize, List.count_append, List.reverse_append]
    by_cases hc : c = '\n'
    · simp [hc]
    · simp [hc]

theorem Token.SpelledAt.isOf {text : List Char} {t : Token} {i : Nat} (h : t.SpelledAt text i) :
    t.origin.IsOf text i := by
  rw [h.origin, Origin.advanceAll_start]
  exact ⟨rfl, rfl, rfl⟩

/-- A name is spelled as it is. -/
theorem Token.SpelledAt.name {text : List Char} {t : Token} {i : Nat} (h : t.SpelledAt text i)
    {name : String} (ht : t.lexeme = .name name) : name.toList <+: text.drop i := by
  obtain ⟨d, word, hspells, hword⟩ := h.word
  rw [ht] at hspells
  generalize hw : Lexeme.name name = w at hspells
  cases hspells with
  | name hname =>
    cases hw
    rwa [String.toList_ofList]
  | _ => cases hw

/-- The tokens of a text are sorted. -/
theorem Token.Scans.sorted {ending : Ending} {d : Bool} {o : Origin} {cs rest : List Char}
    {ts : List Token} (h : Scans ending d o cs ts rest) : Sorted ts := by
  induction h with
  | done => exact List.Pairwise.nil
  | blank _ _ ih => exact ih
  | @word d o w cs more rest ts htaken hrest ih =>
    refine List.pairwise_cons.2 ⟨fun t ht => ?_, ih⟩
    obtain ⟨-, lead, -, -, -, -, ho⟩ := hrest.spelled ht
    obtain ⟨c, cs, rfl⟩ := List.exists_cons_of_ne_nil htaken.spells.ne_nil
    have hc := c.utf8Size_pos
    have hcons : Text.byteSize (c :: cs) = c.utf8Size + Text.byteSize cs := rfl
    rw [ho, Origin.offset_advanceAll, Origin.offset_advanceAll, hcons]
    dsimp only
    omega

namespace Expr

/-- What is read is in order, in tokens that are spelled where their origins say. -/
theorem inOrder_of_parseUpTo {ending : Ending} {cs rest : List Char} {e : Expr}
    (h : parseUpTo ending cs = .ok (e, rest)) :
    ∃ ts, InOrder ts [e] ∧ ∀ t ∈ ts, ∃ i, t.SpelledAt cs i := by
  obtain ⟨ts, hscan, hstands⟩ := stands_of_parseUpTo h
  exact ⟨ts, hstands.inOrder hscan.sorted, fun t ht => hscan.spelledAt ht⟩

theorem exists_parseUpTo {text : String} {root : Expr}
    (h : parse text = .ok root ∨ ∃ n, parseFragment text = .ok (root, n)) :
    ∃ ending rest, parseUpTo ending text.toList = .ok (root, rest) := by
  rcases h with h | ⟨n, h⟩
  · exact ⟨.text, [], parse_eq_ok_iff.1 h⟩
  · unfold parseFragment at h
    cases hp : parseUpTo .braces text.toList with
    | error err => rw [hp] at h; cases h
    | ok r =>
      rw [hp] at h
      cases h
      exact ⟨.braces, r.2, hp⟩

/-- The origins of what is read are true and ordered as in the text. A walk that meets each node before
    its parts meets the offsets in order. Each node begins at a visible character, with the line, column
    and offset of that, and a variable where its name is written; a chain of accessors begins with its
    head, no part begins before its node, and the parts begin one after the other. -/
theorem origins_in_source_order {text : String} {root : Expr}
    (h : parse text = .ok root ∨ ∃ n, parseFragment text = .ok (root, n)) :
    (root.preorder.Pairwise fun a b => a.origin.offset ≤ b.origin.offset) ∧
      ∀ e ∈ root.preorder,
        (∃ i c, text.toList[i]? = some c ∧ ¬Text.isWhite c ∧ e.origin.IsOf text.toList i ∧
          ∀ o name, e = .var o name → name.toList <+: text.toList.drop i) ∧
        e.PartsInOrder := by
  obtain ⟨ending, rest, hread⟩ := exists_parseUpTo h
  obtain ⟨ts, horder, hspelled⟩ := inOrder_of_parseUpTo hread
  have hnodes : preorderAll [root] = root.preorder := by simp [preorderAll]
  refine ⟨hnodes ▸ horder.walk, fun e he => ⟨?_, horder.parts e (hnodes ▸ he)⟩⟩
  obtain ⟨t, ht, ho, hvar⟩ := horder.begins e (hnodes ▸ he)
  obtain ⟨i, hi⟩ := hspelled t ht
  obtain ⟨c, hc, hvisible⟩ := hi.visible
  exact ⟨i, c, hc, hvisible, ho ▸ hi.isOf, fun o name hname => hi.name (hvar o name hname)⟩

/-- An operation in parentheses, as the head of a chain that is an operand. -/
def parenthesized : Expr :=
  .binary .start .eq
    (.property ⟨1, 2, 1⟩
      (.binary ⟨1, 2, 1⟩ .or (.literal ⟨1, 2, 1⟩ (.string "é")) (.var ⟨2, 2, 10⟩ "b")) "c")
    (.var ⟨2, 10, 18⟩ "d")

/-- The chain begins after the parenthesis and the operation around it begins at it; columns count
    characters of their own line, offsets bytes. -/
theorem origins_in_source_order_at_parens :
    parse "('é' ||\n b).c == d" = .ok parenthesized ∧
      parenthesized.preorder.Pairwise fun a b => a.origin.offset ≤ b.origin.offset := by
  have h : parse "('é' ||\n b).c == d" = .ok parenthesized := by cbv
  exact ⟨h, (origins_in_source_order (.inl h)).1⟩

end Expr

end WorkflowAudit
