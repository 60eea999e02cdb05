import WorkflowAudit.Proofs.Expr.Grammar

/-!
Where expressions begin among their tokens. The grammar is followed on tokens in the place of words, so
that it fixes the origins too: a literal, a variable, a call and a negation begin with their first token,
a chain begins where its head begins, and a binary operation with the first token of its left operand.
Main statements: each part of an expression has tokens of its own, and the origins of chains, binary
operations and calls are those of the tokens that they begin with.
-/

namespace WorkflowAudit

/-- The tokens that make up a phrase, with its origins among theirs. -/
inductive Stands : Phrase → List Token → Prop
  | binary {l : Level} {op : BinaryOp} {lhs rhs : Expr} {first t : Token} {us vs : List Token} :
      op ∈ l.operators → us.head? = some first → t.lexeme = .op op → Stands (.level l lhs) us →
      Stands (.operand l rhs) vs →
      Stands (.level l (.binary first.origin op lhs rhs)) (us ++ t :: vs)
  | operand {l : Level} {e : Expr} {us : List Token} : Stands (.operand l e) us →
      Stands (.level l e) us
  | not {t : Token} {e : Expr} {us : List Token} : t.lexeme = .not → Stands (.unary e) us →
      Stands (.unary (.not t.origin e)) (t :: us)
  | chain {e : Expr} {us : List Token} : Stands (.chain e) us → Stands (.unary e) us
  | property {t u : Token} {r : Expr} {name : String} {us : List Token} : t.lexeme = .dot →
      u.lexeme = .property name → Stands (.chain r) us →
      Stands (.chain (.property r.origin r name)) (us ++ [t, u])
  | filter {t u : Token} {r : Expr} {us : List Token} : t.lexeme = .dot → u.lexeme = .star →
      Stands (.chain r) us → Stands (.chain (.filter r.origin r)) (us ++ [t, u])
  | index {t u : Token} {e k : Expr} {us vs : List Token} : t.lexeme = .openBracket →
      u.lexeme = .closeBracket → Stands (.chain e) us → Stands (.level .or k) vs →
      Stands (.chain (.index e.origin e k)) (us ++ t :: (vs ++ [u]))
  | parens {t u : Token} {e : Expr} {us : List Token} : t.lexeme = .openParen →
      u.lexeme = .closeParen → Stands (.level .or e) us → Stands (.chain e) (t :: (us ++ [u]))
  | null {t : Token} : t.lexeme = .name "null" → Stands (.chain (.literal t.origin .null)) [t]
  | true {t : Token} : t.lexeme = .name "true" →
      Stands (.chain (.literal t.origin (.boolean true))) [t]
  | false {t : Token} : t.lexeme = .name "false" →
      Stands (.chain (.literal t.origin (.boolean false))) [t]
  | number {t : Token} {cs : List Char} {x : Binary64} : t.lexeme = .number cs → Lexeme.Denotes cs x →
      Stands (.chain (.literal t.origin (.number x))) [t]
  | string {t : Token} {v : String} : t.lexeme = .string v →
      Stands (.chain (.literal t.origin (.string v))) [t]
  | var {t : Token} {name : String} : t.lexeme = .name name → name ∉ Expr.keywords →
      Stands (.chain (.var t.origin name)) [t]
  | call {t u v : Token} {f : String} {es : List Expr} {us : List Token} : t.lexeme = .name f →
      u.lexeme = .openParen → v.lexeme = .closeParen → Stands (.args es) us →
      Stands (.chain (.call t.origin f es)) (t :: u :: (us ++ [v]))
  | noArgs : Stands (.args []) []
  | lastArg {e : Expr} {us : List Token} : Stands (.level .or e) us → Stands (.args [e]) us
  | moreArgs {t : Token} {e e' : Expr} {es : List Expr} {us vs : List Token} : t.lexeme = .comma →
      Stands (.level .or e) us → Stands (.args (e' :: es)) vs →
      Stands (.args (e :: e' :: es)) (us ++ t :: vs)

namespace Stands

/-- The words of the tokens make up the phrase. -/
theorem derives {p : Phrase} {ts : List Token} (h : Stands p ts) :
    Derives p (ts.map Token.lexeme) := by
  induction h with
  | binary hl _ ht _ _ ihl ihr =>
    rw [List.map_append, List.map_cons, ht]
    exact .binary hl ihl ihr
  | operand _ ih => exact .operand ih
  | not ht _ ih =>
    rw [List.map_cons, ht]
    exact .not ih
  | chain _ ih => exact .chain ih
  | property ht hu _ ih =>
    rw [List.map_append, List.map_cons, List.map_singleton, ht, hu]
    exact .property ih
  | filter ht hu _ ih =>
    rw [List.map_append, List.map_cons, List.map_singleton, ht, hu]
    exact .filter ih
  | index ht hu _ _ ihe ihk =>
    rw [List.map_append, List.map_cons, List.map_append, List.map_singleton, ht, hu]
    exact .index ihe ihk
  | parens ht hu _ ih =>
    rw [List.map_cons, List.map_append, List.map_singleton, ht, hu]
    exact .parens ih
  | null ht => rw [List.map_singleton, ht]; exact .null
  | true ht => rw [List.map_singleton, ht]; exact .true
  | false ht => rw [List.map_singleton, ht]; exact .false
  | number ht hx => rw [List.map_singleton, ht]; exact .number hx
  | string ht => rw [List.map_singleton, ht]; exact .string
  | var ht hname => rw [List.map_singleton, ht]; exact .var hname
  | call ht hu hv _ ih =>
    rw [List.map_cons, List.map_cons, List.map_append, List.map_singleton, ht, hu, hv]
    exact .call ih
  | noArgs => exact .noArgs
  | lastArg _ ih => exact .lastArg ih
  | moreArgs ht _ _ ihe ihes =>
    rw [List.map_append, List.map_cons, ht]
    exact .moreArgs ihe ihes

theorem level_or {e : Expr} {us : List Token} : ∀ {l : Level}, Stands (.level l e) us →
    Stands (.level .or e) us
  | .comparison, h => .operand (.operand (.operand h))
  | .equality, h => .operand (.operand h)
  | .and, h => .operand h
  | .or, h => h

theorem chain_or {e : Expr} {us : List Token} (h : Stands (.chain e) us) :
    Stands (.level .or e) us :=
  .operand (.operand (.operand (.operand (.chain h))))

end Stands

/-! ### Parts of an expression -/

/-- An expression, one of its direct parts, one of theirs, and so on. -/
inductive Expr.Part : Expr → Expr → Prop
  | self {e : Expr} : Part e e
  | inside {part child e : Expr} : Part part child → child ∈ e.children → Part part e

/-- The direct parts of a phrase. -/
def Phrase.children : Phrase → List Expr
  | .level _ e | .unary e | .chain e => e.children
  | .args es => es

@[simp] theorem Phrase.children_operand (l : Level) (e : Expr) :
    (Phrase.operand l e).children = e.children := by
  cases l <;> rfl

namespace Stands

/-- A direct part stands in tokens of its own. -/
theorem of_mem_children {p : Phrase} {ts : List Token} (h : Stands p ts) {e : Expr}
    (he : e ∈ p.children) : ∃ us, us <:+: ts ∧ Stands (.level .or e) us := by
  induction h with
  | @binary l op lhs rhs first t us vs hl _ ht hlhs hrhs ihl ihr =>
    rcases List.mem_pair.1 he with rfl | rfl
    · exact ⟨us, (List.prefix_append ..).isInfix, hlhs.level_or⟩
    · exact ⟨vs, ((List.suffix_cons ..).trans (List.suffix_append ..)).isInfix,
        (operand hrhs).level_or⟩
  | operand _ ih => exact ih (by rwa [Phrase.children_operand])
  | @not t e' us ht h ih =>
    rw [List.mem_singleton.1 he]
    exact ⟨us, (List.suffix_cons ..).isInfix, .operand (.operand (.operand (.operand h)))⟩
  | chain _ ih => exact ih he
  | property _ _ h ih | filter _ _ h ih =>
    rw [List.mem_singleton.1 he]
    exact ⟨_, (List.prefix_append ..).isInfix, h.chain_or⟩
  | @index t u e' k us vs _ _ h hk ihe ihk =>
    rcases List.mem_pair.1 he with rfl | rfl
    · exact ⟨us, (List.prefix_append ..).isInfix, h.chain_or⟩
    · exact ⟨vs, ⟨us ++ [t], [u], by simp⟩, hk⟩
  | @parens t u e' us _ _ _ ih =>
    obtain ⟨vs, hvs, h⟩ := ih he
    exact ⟨vs, hvs.trans ⟨[t], [u], by simp⟩, h⟩
  | null | true | false | number | string | var | noArgs => cases he
  | @call t u v f es us _ _ _ _ ih =>
    obtain ⟨vs, hvs, h⟩ := ih he
    exact ⟨vs, hvs.trans ⟨[t, u], [v], by simp⟩, h⟩
  | lastArg h ih =>
    rw [List.mem_singleton.1 he]
    exact ⟨_, List.infix_rfl, h⟩
  | @moreArgs t e' e'' es us vs _ h _ _ ih =>
    rcases List.mem_cons.1 he with rfl | he
    · exact ⟨us, (List.prefix_append ..).isInfix, h⟩
    · obtain ⟨ws, hws, h⟩ := ih he
      exact ⟨ws, hws.trans ((List.suffix_cons ..).trans (List.suffix_append ..)).isInfix, h⟩

/-- Each part stands in tokens of its own. -/
theorem of_part {part e : Expr} (h : part.Part e) :
    ∀ {ts : List Token}, Stands (.level .or e) ts →
      ∃ us, us <:+: ts ∧ Stands (.level .or part) us := by
  induction h with
  | self => exact fun hts => ⟨_, List.infix_rfl, hts⟩
  | inside _ hchild ih =>
    intro ts hts
    obtain ⟨us, hus, h⟩ := hts.of_mem_children hchild
    obtain ⟨vs, hvs, h⟩ := ih h
    exact ⟨vs, hvs.trans hus, h⟩

end Stands

/-! ### Where an expression begins -/

/-- The variable that a chain of accessors starts at. -/
def Expr.head? : Expr → Option String
  | .var _ name => some name
  | .property _ r _ | .filter _ r | .index _ r _ => r.head?
  | .literal .. | .call .. | .binary .. | .not .. => none

/-- The expression that a phrase is, unless it is a list of arguments. -/
def Phrase.expr? : Phrase → Option Expr
  | .level _ e | .unary e | .chain e => some e
  | .args _ => none

@[simp] theorem Phrase.expr?_operand (l : Level) (e : Expr) :
    (Phrase.operand l e).expr? = some e := by
  cases l <;> rfl

namespace Stands

/-- A binary operation begins with the first token of its left operand, around whatever parentheses
    it stands in. -/
theorem of_binary {p : Phrase} {ts : List Token} (h : Stands p ts) {o : Origin} {op : BinaryOp}
    {lhs rhs : Expr} (hp : p.expr? = some (.binary o op lhs rhs)) :
    ∃ us t vs first, us ++ t :: vs <:+: ts ∧ t.lexeme = .op op ∧ us.head? = some first ∧
      first.origin = o ∧ Stands (.level .or lhs) us ∧ Stands (.level .or rhs) vs := by
  induction h with
  | @binary l op lhs rhs first t us vs hl hfirst ht hlhs hrhs _ _ =>
    cases hp
    exact ⟨us, t, vs, first, List.infix_rfl, ht, hfirst, rfl, hlhs.level_or, (operand hrhs).level_or⟩
  | operand _ ih => exact ih (by rw [Phrase.expr?_operand]; exact hp)
  | chain _ ih => exact ih hp
  | @parens t u e us _ _ _ ih =>
    obtain ⟨us', t', vs, first, hin, h⟩ := ih hp
    exact ⟨us', t', vs, first, hin.trans ⟨[t], [u], by simp⟩, h⟩
  | not | property | filter | index | null | true | false | number | string | var | call | noArgs
  | lastArg | moreArgs => cases hp

/-- A call begins with the name of its function. -/
theorem of_call {p : Phrase} {ts : List Token} (h : Stands p ts) {o : Origin} {f : String}
    {es : List Expr} (hp : p.expr? = some (.call o f es)) :
    ∃ t u us v, t :: u :: (us ++ [v]) <:+: ts ∧ t.lexeme = .name f ∧ t.origin = o ∧
      u.lexeme = .openParen ∧ v.lexeme = .closeParen ∧ Stands (.args es) us := by
  induction h with
  | @call t u v f es us ht hu hv hes _ =>
    cases hp
    exact ⟨t, u, us, v, List.infix_rfl, ht, rfl, hu, hv, hes⟩
  | operand _ ih => exact ih (by rw [Phrase.expr?_operand]; exact hp)
  | chain _ ih => exact ih hp
  | @parens t u e us _ _ _ ih =>
    obtain ⟨t', u', us', v, hin, h⟩ := ih hp
    exact ⟨t', u', us', v, hin.trans ⟨[t], [u], by simp⟩, h⟩
  | not | binary | property | filter | index | null | true | false | number | string | var | noArgs
  | lastArg | moreArgs => cases hp

/-- A chain begins with its variable, after the parentheses that open before it. -/
theorem of_chain {p : Phrase} {ts : List Token} (h : Stands p ts) {e : Expr} {name : String}
    (hp : p.expr? = some e) (he : e.head? = some name) :
    ∃ opens t us, ts = opens ++ t :: us ∧ (∀ u ∈ opens, u.lexeme = .openParen) ∧
      t.lexeme = .name name ∧ t.origin = e.origin := by
  induction h generalizing e with
  | @var t name ht _ =>
    cases hp
    cases he
    exact ⟨[], t, [], rfl, by simp, ht, rfl⟩
  | operand _ ih => exact ih (by rw [Phrase.expr?_operand]; exact hp) he
  | chain _ ih => exact ih hp he
  | property _ _ _ ih | filter _ _ _ ih | index _ _ _ _ ih _ =>
    cases hp
    obtain ⟨opens, t, us, rfl, hopens, ht, ho⟩ := ih rfl he
    exact ⟨opens, t, _, List.append_assoc .., hopens, ht, ho⟩
  | @parens t u e' us ht _ _ ih =>
    obtain ⟨opens, t', us, rfl, hopens, h⟩ := ih hp he
    exact ⟨t :: opens, t', us ++ [u], by simp, List.forall_mem_cons.2 ⟨ht, hopens⟩, h⟩
  | binary | not | null | true | false | number | string | call =>
    cases hp
    cases he
  | noArgs | lastArg | moreArgs => cases hp

end Stands

/-- The token among others that an expression begins with: the variable of a chain, after whatever
    parentheses open before it, the first token of the left operand of a binary operation, and the name
    of the function of a call. -/
inductive Expr.FirstIn (ts : List Token) : Expr → Token → Prop
  | chain {e : Expr} {name : String} {opens us : List Token} {t : Token} : e.head? = some name →
      opens ++ t :: us <:+: ts → Stands (.level .or e) (opens ++ t :: us) →
      (∀ u ∈ opens, u.lexeme = .openParen) → t.lexeme = .name name → FirstIn ts e t
  | binary {o : Origin} {op : BinaryOp} {lhs rhs : Expr} {us vs : List Token} {t first : Token} :
      us ++ t :: vs <:+: ts → us.head? = some first → t.lexeme = .op op →
      Stands (.level .or lhs) us → Stands (.level .or rhs) vs →
      FirstIn ts (.binary o op lhs rhs) first
  | call {o : Origin} {f : String} {es : List Expr} {us : List Token} {t u v : Token} :
      t :: u :: (us ++ [v]) <:+: ts → t.lexeme = .name f → u.lexeme = .openParen →
      v.lexeme = .closeParen → Stands (.args es) us → FirstIn ts (.call o f es) t

namespace Expr

theorem FirstIn.mem {ts : List Token} {e : Expr} {t : Token} (h : FirstIn ts e t) : t ∈ ts := by
  cases h with
  | chain _ hin _ _ _ => exact hin.subset (by simp)
  | binary hin hfirst _ _ _ => exact hin.subset (List.mem_append_left _ (List.mem_of_head? hfirst))
  | call hin _ _ _ _ => exact hin.subset (List.mem_cons_self ..)

/-- The expression is a chain that starts at a variable, a binary operation or a call. -/
def IsReported : Expr → Prop
  | .binary .. | .call .. => True
  | e => e.head?.isSome

/-- What is reported begins with a token of its own, and its origin is that of the token. -/
theorem exists_firstIn {ts : List Token} {e root : Expr} (h : Stands (.level .or root) ts)
    (hpart : e.Part root) (he : e.IsReported) : ∃ t, FirstIn ts e t ∧ t.origin = e.origin := by
  obtain ⟨us, hus, hstands⟩ := Stands.of_part hpart h
  have hchain (hhead : e.head?.isSome) : ∃ t, FirstIn ts e t ∧ t.origin = e.origin := by
    obtain ⟨name, hname⟩ := Option.isSome_iff_exists.1 hhead
    obtain ⟨opens, t, rest, rfl, hopens, ht, ho⟩ := hstands.of_chain rfl hname
    exact ⟨t, .chain hname hus hstands hopens ht, ho⟩
  cases e with
  | binary o op lhs rhs =>
    obtain ⟨vs, t, ws, first, hin, ht, hfirst, ho, hlhs, hrhs⟩ := hstands.of_binary rfl
    exact ⟨first, .binary (hin.trans hus) hfirst ht hlhs hrhs, ho⟩
  | call o f es =>
    obtain ⟨t, u, vs, v, hin, ht, ho, hu, hv, hes⟩ := hstands.of_call rfl
    exact ⟨t, .call (hin.trans hus) ht hu hv hes, ho⟩
  | literal | var | property | filter | index | not => exact hchain he

end Expr

end WorkflowAudit
