import WorkflowAudit.Proofs.Number.Numeral

/-!
The grammar of expressions over words, apart from any reader. The levels bind ever more tightly: `||`,
`&&`, equality, comparison, `!`, accessors. A binary level takes its left operand from its own level
and its right operand from the next tighter one, so that it associates to the left. Parentheses may
stand around any expression. The operators and the order of the levels are tables of the grammar; the
reader has the same.
-/

namespace WorkflowAudit

namespace Expr

mutual

/-- The expression with all its origins forgotten. -/
def unplaced : Expr → Expr
  | literal _ v => literal .start v
  | var _ n => var .start n
  | property _ r n => property .start r.unplaced n
  | filter _ r => filter .start r.unplaced
  | index _ e k => index .start e.unplaced k.unplaced
  | call _ f args => call .start f (unplacedAll args)
  | binary _ op l r => binary .start op l.unplaced r.unplaced
  | not _ e => not .start e.unplaced

/-- The expressions of a list with all their origins forgotten. -/
def unplacedAll : List Expr → List Expr
  | [] => []
  | e :: es => e.unplaced :: unplacedAll es

end

mutual

@[simp] theorem unplaced_unplaced : ∀ e : Expr, e.unplaced.unplaced = e.unplaced
  | literal _ _ | var _ _ => by simp only [unplaced]
  | property _ r _ | filter _ r => by simp only [unplaced, unplaced_unplaced r]
  | index _ l r | binary _ _ l r => by
    simp only [unplaced, unplaced_unplaced l, unplaced_unplaced r]
  | call _ _ args => by simp only [unplaced, unplacedAll_unplacedAll args]
  | not _ e => by simp only [unplaced, unplaced_unplaced e]

@[simp] theorem unplacedAll_unplacedAll : ∀ es : List Expr,
    unplacedAll (unplacedAll es) = unplacedAll es
  | [] => rfl
  | e :: es => by simp only [unplacedAll, unplaced_unplaced e, unplacedAll_unplacedAll es]

end

/-- The names that stand for values when they stand alone. -/
def keywords : List String := ["null", "true", "false"]

end Expr

/-- The operators of a level. -/
def Level.operators : Level → List BinaryOp
  | .or => [.or]
  | .and => [.and]
  | .equality => [.eq, .ne]
  | .comparison => [.lt, .le, .gt, .ge]

/-- The reader takes an operator at the level that has it. -/
theorem Level.mem_operators {l : Level} {op : BinaryOp} : op ∈ l.operators ↔ Level.ofOp op = l := by
  cases l <;> cases op <;> decide

/-- What words can make up: an expression of a level, or the arguments of a call. -/
inductive Phrase where
  | level (l : Level) (e : Expr)
  | unary (e : Expr)
  | chain (e : Expr)
  | args (es : List Expr)

namespace Phrase

/-- The right operand of a level: an expression of the next tighter one. -/
def operand : Level → Expr → Phrase
  | .or, e => .level .and e
  | .and, e => .level .equality e
  | .equality, e => .level .comparison e
  | .comparison, e => .unary e

theorem operand_of_tighter {l m : Level} (h : l.tighter = some m) (e : Expr) :
    operand l e = .level m e := by
  cases l <;> cases h <;> rfl

theorem operand_of_tightest {l : Level} (h : l.tighter = none) (e : Expr) : operand l e = .unary e := by
  cases l <;> cases h
  rfl

/-- The phrase with all its origins forgotten. -/
def unplaced : Phrase → Phrase
  | .level l e => .level l e.unplaced
  | .unary e => .unary e.unplaced
  | .chain e => .chain e.unplaced
  | .args es => .args (Expr.unplacedAll es)

theorem unplaced_operand (l : Level) (e : Expr) : (operand l e).unplaced = operand l e.unplaced := by
  cases l <;> rfl

end Phrase

/-- The words that make up a phrase. Origins are of no account. -/
inductive Derives : Phrase → List Lexeme → Prop
  | binary {l : Level} {o : Origin} {op : BinaryOp} {lhs rhs : Expr} {ws vs : List Lexeme} :
      op ∈ l.operators → Derives (.level l lhs) ws → Derives (.operand l rhs) vs →
      Derives (.level l (.binary o op lhs rhs)) (ws ++ .op op :: vs)
  | operand {l : Level} {e : Expr} {ws : List Lexeme} : Derives (.operand l e) ws →
      Derives (.level l e) ws
  | not {o : Origin} {e : Expr} {ws : List Lexeme} : Derives (.unary e) ws →
      Derives (.unary (.not o e)) (.not :: ws)
  | chain {e : Expr} {ws : List Lexeme} : Derives (.chain e) ws → Derives (.unary e) ws
  | property {o : Origin} {r : Expr} {name : String} {ws : List Lexeme} : Derives (.chain r) ws →
      Derives (.chain (.property o r name)) (ws ++ [.dot, .property name])
  | filter {o : Origin} {r : Expr} {ws : List Lexeme} : Derives (.chain r) ws →
      Derives (.chain (.filter o r)) (ws ++ [.dot, .star])
  | index {o : Origin} {e k : Expr} {ws vs : List Lexeme} : Derives (.chain e) ws →
      Derives (.level .or k) vs →
      Derives (.chain (.index o e k)) (ws ++ .openBracket :: (vs ++ [.closeBracket]))
  | parens {e : Expr} {ws : List Lexeme} : Derives (.level .or e) ws →
      Derives (.chain e) (.openParen :: (ws ++ [.closeParen]))
  | null {o : Origin} : Derives (.chain (.literal o .null)) [.name "null"]
  | true {o : Origin} : Derives (.chain (.literal o (.boolean true))) [.name "true"]
  | false {o : Origin} : Derives (.chain (.literal o (.boolean false))) [.name "false"]
  | number {o : Origin} {cs : List Char} {x : Binary64} : Lexeme.Denotes cs x →
      Derives (.chain (.literal o (.number x))) [.number cs]
  | string {o : Origin} {v : String} : Derives (.chain (.literal o (.string v))) [.string v]
  | var {o : Origin} {name : String} : name ∉ Expr.keywords →
      Derives (.chain (.var o name)) [.name name]
  | call {o : Origin} {f : String} {es : List Expr} {ws : List Lexeme} : Derives (.args es) ws →
      Derives (.chain (.call o f es)) (.name f :: .openParen :: (ws ++ [.closeParen]))
  | noArgs : Derives (.args []) []
  | lastArg {e : Expr} {ws : List Lexeme} : Derives (.level .or e) ws → Derives (.args [e]) ws
  | moreArgs {e e' : Expr} {es : List Expr} {ws vs : List Lexeme} : Derives (.level .or e) ws →
      Derives (.args (e' :: es)) vs → Derives (.args (e :: e' :: es)) (ws ++ .comma :: vs)

namespace Derives

/-! ### Looser levels take what tighter ones take -/

theorem unary_level {e : Expr} {ws : List Lexeme} (h : Derives (.unary e) ws) :
    ∀ l : Level, Derives (.level l e) ws
  | .comparison => .operand h
  | .equality => .operand (.operand h)
  | .and => .operand (.operand (.operand h))
  | .or => .operand (.operand (.operand (.operand h)))

theorem level_or {e : Expr} {ws : List Lexeme} : ∀ {l : Level}, Derives (.level l e) ws →
    Derives (.level .or e) ws
  | .comparison, h => .operand (.operand (.operand h))
  | .equality, h => .operand (.operand h)
  | .and, h => .operand h
  | .or, h => h

/-! ### Origins and numbers -/

theorem unplaced {p : Phrase} {ws : List Lexeme} (h : Derives p ws) : Derives p.unplaced ws := by
  induction h with
  | binary hl _ _ ihl ihr => exact .binary hl ihl (Phrase.unplaced_operand _ _ ▸ ihr)
  | operand _ ih => exact .operand (Phrase.unplaced_operand _ _ ▸ ih)
  | not _ ih => exact .not ih
  | chain _ ih => exact .chain ih
  | property _ ih => exact .property ih
  | filter _ ih => exact .filter ih
  | index _ _ ihe ihk => exact .index ihe ihk
  | parens _ ih => exact .parens ih
  | null => exact .null
  | true => exact .true
  | false => exact .false
  | number h => exact .number h
  | string => exact .string
  | var h => exact .var h
  | call _ ih => exact .call ih
  | noArgs => exact .noArgs
  | lastArg _ ih => exact .lastArg ih
  | moreArgs _ _ ihe ihes => exact .moreArgs ihe ihes

/-- The numbers among the words denote doubles. -/
theorem exists_denotes {p : Phrase} {ws : List Lexeme} (h : Derives p ws) {cs : List Char}
    (hcs : .number cs ∈ ws) : ∃ x, Lexeme.Denotes cs x := by
  induction h with
  | number hx =>
    cases List.mem_singleton.1 hcs
    exact ⟨_, hx⟩
  | binary _ _ _ ihl ihr | index _ _ ihl ihr | moreArgs _ _ ihl ihr =>
    simp only [List.mem_append, List.mem_cons, List.not_mem_nil, reduceCtorEq, false_or,
      or_false] at hcs
    exact hcs.elim ihl ihr
  | _ => simp_all

end Derives

end WorkflowAudit
