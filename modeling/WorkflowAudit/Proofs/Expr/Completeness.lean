import WorkflowAudit.Proofs.Expr.Reading

/-!
What the grammar derives is read. The readers take as much as they can, so a phrase is read in full when
no token after it could belong to it; the induction on derivations carries that condition on the rest of
the tokens. With the converse, tokens are an expression exactly when the grammar derives it from their
words.
-/

namespace WorkflowAudit.Expr

/-! ### Where a phrase can start and what can stand after it -/

/-- The words that a head of accessors can begin with. -/
def opens : Lexeme → Bool
  | .name _ | .number _ | .string _ | .openParen => true
  | _ => false

/-- The words with which a phrase begins. -/
def Begins : Phrase → List Lexeme → Prop
  | .args _, _ => True
  | .chain _, ws => ∃ w vs, ws = w :: vs ∧ opens w
  | _, ws => ∃ w vs, ws = w :: vs ∧ (w = .not ∨ opens w)

theorem begins_operand {l : Level} {e : Expr} {ws : List Lexeme} (h : Begins (.operand l e) ws) :
    ∃ w vs, ws = w :: vs ∧ (w = .not ∨ opens w) := by
  cases l <;> exact h

theorem begins_of_derives {p : Phrase} {ws : List Lexeme} (h : Derives p ws) : Begins p ws := by
  induction h with
  | binary _ _ _ ih _ =>
    obtain ⟨w, vs, rfl, hw⟩ := ih
    exact ⟨w, _, rfl, hw⟩
  | operand _ ih => exact begins_operand ih
  | not _ _ => exact ⟨_, _, rfl, Or.inl rfl⟩
  | chain _ ih =>
    obtain ⟨w, vs, rfl, hw⟩ := ih
    exact ⟨w, vs, rfl, Or.inr hw⟩
  | property _ ih | filter _ ih | index _ _ ih _ =>
    obtain ⟨w, vs, rfl, hw⟩ := ih
    exact ⟨w, _, rfl, hw⟩
  | noArgs | lastArg _ _ | moreArgs _ _ _ _ => exact trivial
  | _ => exact ⟨_, _, rfl, rfl⟩

/-- What comes next does not continue an expression of a level of this rank: it is no accessor, no
    opening parenthesis, and no operator that binds more tightly. -/
def Stops (rank : Nat) (rest : List Token) : Prop :=
  ∀ t ∈ rest.head?, t.lexeme ≠ .dot ∧ t.lexeme ≠ .openBracket ∧ t.lexeme ≠ .openParen ∧
    ∀ op, t.lexeme = .op op → rank ≤ (Level.ofOp op).rank

theorem Stops.mono {r r' : Nat} {rest : List Token} (h : Stops r' rest) (hr : r ≤ r') :
    Stops r rest := by
  intro t ht
  obtain ⟨h₁, h₂, h₃, h₄⟩ := h t ht
  exact ⟨h₁, h₂, h₃, fun op hop => Nat.le_trans hr (h₄ op hop)⟩

theorem stops_nil (r : Nat) : Stops r [] := by
  intro t ht
  cases ht

/-- A word that is no operator, accessor or opening parenthesis stops every level. -/
theorem stops_cons {r : Nat} {t : Token} {ts : List Token}
    (h : t.lexeme = .closeParen ∨ t.lexeme = .closeBracket ∨ t.lexeme = .comma) :
    Stops r (t :: ts) := by
  intro u hu
  cases hu
  rcases h with h | h | h <;> simp [h]

theorem stops_op {t : Token} {op : BinaryOp} (ht : t.lexeme = .op op) (ts : List Token) :
    Stops (Level.ofOp op).rank (t :: ts) := by
  intro u hu
  cases hu
  simp only [ht]
  refine ⟨by simp, by simp, by simp, fun op' hop => ?_⟩
  cases hop
  exact Nat.le_refl _

/-- No operator of a tighter level follows. -/
theorem operators_stop {l : Level} {r : Nat} {rest : List Token} (hr : l.rank < r)
    (h : Stops r rest) (start : Origin) (e : Expr) : operators l start e rest = some (e, rest) := by
  cases rest with
  | nil => rw [operators_nil]
  | cons t rest =>
    rw [operators_cons]
    cases hop : l.operator? t.lexeme with
    | none => rfl
    | some op =>
      obtain ⟨hlex, hlevel⟩ := operator?_eq_some hop
      obtain rfl := Level.mem_operators.1 hlevel
      have := (h t rfl).2.2.2 op hlex
      omega

theorem accessors_stop {r : Nat} {rest : List Token} (h : Stops r rest) (e : Expr) :
    accessors e rest = some (e, rest) := by
  cases rest with
  | nil => rw [accessors_nil]
  | cons t rest =>
    obtain ⟨h₁, h₂, -⟩ := h t rfl
    rw [accessors_cons, if_neg h₁, if_neg h₂]

theorem after_stop {r : Nat} {rest : List Token} (h : Stops r rest) : after .openParen rest = none := by
  cases rest with
  | nil => rfl
  | cons t rest =>
    rw [after, if_neg (h t rfl).2.2.1]

/-! ### What is derived is read -/

/-- The reader of a phrase takes its words and goes on with what follows them. -/
def Completes : Phrase → List Lexeme → Prop
  | .level l e, ws => ∀ ts rest, ts.map Token.lexeme = ws → Stops l.rank rest →
      ∃ e' start, e'.unplaced = e.unplaced ∧ level l (ts ++ rest) = operators l start e' rest
  | .unary e, ws => ∀ ts rest, ts.map Token.lexeme = ws → Stops 0 rest →
      ∃ e', e'.unplaced = e.unplaced ∧ unary (ts ++ rest) = some (e', rest)
  | .chain e, ws => ∀ ts rest, ts.map Token.lexeme = ws → after .openParen rest = none →
      ∃ e', e'.unplaced = e.unplaced ∧ unary (ts ++ rest) = accessors e' rest
  | .args es, ws => ∀ ts t rest, ts.map Token.lexeme = ws → t.lexeme = .closeParen →
      ∃ es', unplacedAll es' = unplacedAll es ∧ arguments (ts ++ t :: rest) = some (es', rest) ∧
        (es ≠ [] → argument (ts ++ t :: rest) = some (es', rest))

theorem completes_operand {l : Level} {e : Expr} {ws : List Lexeme} (h : Completes (.operand l e) ws)
    {ts rest : List Token} (hts : ts.map Token.lexeme = ws) (hrest : Stops l.rank rest) :
    ∃ e', e'.unplaced = e.unplaced ∧ operand l (ts ++ rest) = some (e', rest) := by
  rw [operand_eq]
  cases hl : l.tighter with
  | none =>
    rw [Phrase.operand_of_tightest hl] at h
    exact h ts rest hts (hrest.mono (Nat.zero_le _))
  | some m =>
    rw [Phrase.operand_of_tighter hl] at h
    have hrank := Level.rank_tighter hl
    obtain ⟨e', start, he, hread⟩ := h ts rest hts (hrest.mono (Nat.le_of_lt hrank))
    exact ⟨e', he, by rw [← operators_stop hrank hrest start e', ← hread]⟩

/-- An expression in brackets of some kind is read up to the closing one. -/
theorem completes_closed {e : Expr} {ws : List Lexeme} (h : Completes (.level .or e) ws)
    {ts : List Token} (hts : ts.map Token.lexeme = ws) {t : Token} (rest : List Token)
    (ht : t.lexeme = .closeParen ∨ t.lexeme = .closeBracket ∨ t.lexeme = .comma) :
    ∃ e', e'.unplaced = e.unplaced ∧ level .or (ts ++ t :: rest) = some (e', t :: rest) := by
  obtain ⟨e', start, he, hread⟩ := h ts (t :: rest) hts (stops_cons ht)
  exact ⟨e', he, by rw [hread, operators_stop (Nat.lt_succ_self _) (stops_cons ht)]⟩

theorem map_eq_append_cons {ts : List Token} {ws vs : List Lexeme} {w : Lexeme}
    (h : ts.map Token.lexeme = ws ++ w :: vs) : ∃ us t rest, ts = us ++ t :: rest ∧
      us.map Token.lexeme = ws ∧ t.lexeme = w ∧ rest.map Token.lexeme = vs := by
  obtain ⟨us, tail, rfl, hus, htail⟩ := List.map_eq_append_iff.1 h
  obtain ⟨t, rest, rfl, ht, hrest⟩ := List.map_eq_cons_iff.1 htail
  exact ⟨us, t, rest, rfl, hus, ht, hrest⟩

/-- A head that one token is. -/
theorem unary_single {t : Token} {rest : List Token} {e : Expr} (hopen : opens t.lexeme)
    (h : primary (t :: rest) = some (e, rest)) : unary (t :: rest) = accessors e rest := by
  have hnot : t.lexeme ≠ .not := by
    intro hnot
    rw [hnot] at hopen
    cases hopen
  rw [unary_cons, if_neg hnot, h]
  rfl

theorem ofName_unplaced_var {name : String} (h : name ∉ keywords) (o : Origin) :
    ofName o name = .var o name := by
  simp only [keywords, List.mem_cons, List.not_mem_nil, or_false, not_or] at h
  rw [ofName, if_neg h.1, if_neg h.2.1, if_neg h.2.2]

/-- A chain that is one token, when no parenthesis opens after it. -/
theorem completes_token {w : Lexeme} {e : Expr} (hopen : opens w)
    (hread : ∀ t rest, t.lexeme = w → after .openParen rest = none →
      ∃ e', e'.unplaced = e.unplaced ∧ primary (t :: rest) = some (e', rest)) :
    Completes (.chain e) [w] := by
  intro ts rest hts hrest
  obtain ⟨t, rfl, ht⟩ := List.map_eq_singleton_iff.1 hts
  obtain ⟨e', he, hprimary⟩ := hread t rest ht hrest
  exact ⟨e', he, unary_single (ht ▸ hopen) hprimary⟩

theorem completes_name {name : String} {e : Expr}
    (he : ∀ o, (ofName o name).unplaced = e.unplaced) : Completes (.chain e) [.name name] := by
  refine completes_token rfl fun t rest ht hrest => ⟨ofName t.origin name, he _, ?_⟩
  rw [primary_cons, ht]
  simp only [hrest]

/-- A chain with an accessor of a point and one more token. -/
theorem completes_accessor {r e : Expr} {w : Lexeme} {ws : List Lexeme} (h : Completes (.chain r) ws)
    (hread : ∀ r' t u rest, r'.unplaced = r.unplaced → t.lexeme = .dot → u.lexeme = w →
      ∃ e', e'.unplaced = e.unplaced ∧ accessors r' (t :: u :: rest) = accessors e' rest) :
    Completes (.chain e) (ws ++ [.dot, w]) := by
  intro ts rest hts hrest
  obtain ⟨us, t, tail, rfl, hus, ht, htail⟩ := map_eq_append_cons hts
  obtain ⟨u, rfl, hu⟩ := List.map_eq_singleton_iff.1 htail
  obtain ⟨r', hr, hchain⟩ := h us (t :: u :: rest) hus (by rw [after, ht]; rfl)
  obtain ⟨e', he, haccess⟩ := hread r' t u rest hr ht hu
  refine ⟨e', he, ?_⟩
  rw [List.append_assoc, List.cons_append, List.singleton_append, hchain, haccess]

theorem arguments_eq_argument {e : Expr} {ws : List Lexeme} (h : Derives (.level .or e) ws)
    {ts : List Token} (hts : ts.map Token.lexeme = ws) (rest : List Token) :
    arguments (ts ++ rest) = argument (ts ++ rest) := by
  obtain ⟨w, vs, rfl, hw⟩ := begins_of_derives h
  obtain ⟨t, ts, rfl, ht, -⟩ := List.map_eq_cons_iff.1 hts
  have hclose : t.lexeme ≠ .closeParen := by
    rintro hclose
    rw [← ht, hclose] at hw
    rcases hw with hw | hw <;> cases hw
  rw [List.cons_append, arguments_cons, if_neg hclose]

theorem completes_binary {l : Level} {o : Origin} {op : BinaryOp} {lhs rhs : Expr}
    {ws vs : List Lexeme} (hop : op ∈ l.operators) (hlhs : Completes (.level l lhs) ws)
    (hrhs : Completes (.operand l rhs) vs) :
    Completes (.level l (.binary o op lhs rhs)) (ws ++ .op op :: vs) := by
  intro ts rest hts hrest
  have hl := Level.mem_operators.1 hop
  obtain ⟨us, t, more, rfl, hus, ht, hmore⟩ := map_eq_append_cons hts
  obtain ⟨lhs', start, hl', hread⟩ := hlhs us (t :: (more ++ rest)) hus (hl ▸ stops_op ht _)
  obtain ⟨rhs', hr', hread'⟩ := completes_operand hrhs hmore hrest
  refine ⟨.binary start op lhs' rhs', start, by rw [unplaced, unplaced, hl', hr'], ?_⟩
  have hop : l.operator? t.lexeme = some op := by
    rw [ht, Level.operator?, if_pos hl]
  rw [List.append_assoc, List.cons_append, hread, operators_cons, hop]
  simp only [hread', Option.bind_some]

theorem completes_level {l : Level} {e : Expr} {ws : List Lexeme} (hd : Derives (.operand l e) ws)
    (h : Completes (.operand l e) ws) : Completes (.level l e) ws := by
  intro ts rest hts hrest
  obtain ⟨e', he, hread⟩ := completes_operand h hts hrest
  obtain ⟨w, vs, rfl, -⟩ := begins_operand (begins_of_derives hd)
  obtain ⟨t, ts, rfl, -, -⟩ := List.map_eq_cons_iff.1 hts
  refine ⟨e', t.origin, he, ?_⟩
  rw [List.cons_append] at hread ⊢
  rw [level_cons, hread]
  rfl

theorem completes_index {o : Origin} {e k : Expr} {ws vs : List Lexeme}
    (he : Completes (.chain e) ws) (hk : Completes (.level .or k) vs) :
    Completes (.chain (.index o e k)) (ws ++ .openBracket :: (vs ++ [.closeBracket])) := by
  intro ts rest hts hrest
  obtain ⟨us, t, tail, rfl, hus, ht, htail⟩ := map_eq_append_cons hts
  obtain ⟨more, u, left, rfl, hmore, hu, hleft⟩ := map_eq_append_cons htail
  obtain rfl := List.map_eq_nil_iff.1 hleft
  obtain ⟨e', he', hread⟩ := he us (t :: (more ++ u :: rest)) hus (by rw [after, ht]; rfl)
  obtain ⟨k', hk', hread'⟩ := completes_closed hk hmore rest (Or.inr (Or.inl hu))
  refine ⟨.index e'.origin e' k', by rw [unplaced, unplaced, he', hk'], ?_⟩
  have hcut : us ++ t :: (more ++ [u]) ++ rest = us ++ t :: (more ++ u :: rest) := by simp
  rw [hcut, hread, accessors_cons, if_neg (by rw [ht]; simp), if_pos ht, hread']
  simp only [Option.bind_some, after, hu, if_true]

theorem completes_parens {e : Expr} {ws : List Lexeme} (h : Completes (.level .or e) ws) :
    Completes (.chain e) (.openParen :: (ws ++ [.closeParen])) := by
  intro ts rest hts hrest
  obtain ⟨t, ts, rfl, ht, hts⟩ := List.map_eq_cons_iff.1 hts
  obtain ⟨more, u, left, rfl, hmore, hu, hleft⟩ := map_eq_append_cons hts
  obtain rfl := List.map_eq_nil_iff.1 hleft
  obtain ⟨e', he, hread⟩ := completes_closed h hmore rest (Or.inl hu)
  refine ⟨e', he, ?_⟩
  have hcut : t :: (more ++ [u]) ++ rest = t :: (more ++ u :: rest) := by simp
  rw [hcut, unary_cons, if_neg (by rw [ht]; simp), primary_cons, ht]
  simp only [hread, Option.bind_some, after, hu, if_true, Option.map_some]

theorem completes_call {o : Origin} {f : String} {es : List Expr} {ws : List Lexeme}
    (h : Completes (.args es) ws) :
    Completes (.chain (.call o f es)) (.name f :: .openParen :: (ws ++ [.closeParen])) := by
  intro ts rest hts hrest
  obtain ⟨t, ts, rfl, ht, hts⟩ := List.map_eq_cons_iff.1 hts
  obtain ⟨u, ts, rfl, hu, hts⟩ := List.map_eq_cons_iff.1 hts
  obtain ⟨more, v, left, rfl, hmore, hv, hleft⟩ := map_eq_append_cons hts
  obtain rfl := List.map_eq_nil_iff.1 hleft
  obtain ⟨es', hes, hread, -⟩ := h more v rest hmore hv
  refine ⟨.call t.origin f es', by rw [unplaced, unplaced, hes], ?_⟩
  have hcut : t :: u :: (more ++ [v]) ++ rest = t :: u :: (more ++ v :: rest) := by simp
  rw [hcut, unary_cons, if_neg (by rw [ht]; simp), primary_cons, ht]
  simp only [after, hu, if_true, hread, Option.map_some, Option.bind_some]

theorem completes_lastArg {e : Expr} {ws : List Lexeme} (hd : Derives (.level .or e) ws)
    (h : Completes (.level .or e) ws) : Completes (.args [e]) ws := by
  intro ts t rest hts ht
  obtain ⟨e', he, hread⟩ := completes_closed h hts rest (Or.inl ht)
  have harg : argument (ts ++ t :: rest) = some ([e'], rest) := by
    rw [argument_eq, hread]
    simp only [Option.bind_some, after, ht, if_true]
  refine ⟨[e'], by simp only [unplacedAll, he], ?_, fun _ => harg⟩
  rw [arguments_eq_argument hd hts, harg]

theorem completes_moreArgs {e e' : Expr} {es : List Expr} {ws vs : List Lexeme}
    (hd : Derives (.level .or e) ws) (he : Completes (.level .or e) ws)
    (hes : Completes (.args (e' :: es)) vs) :
    Completes (.args (e :: e' :: es)) (ws ++ .comma :: vs) := by
  intro ts t rest hts ht
  obtain ⟨us, u, more, rfl, hus, hu, hmore⟩ := map_eq_append_cons hts
  obtain ⟨d, hd', hread⟩ := completes_closed he hus (more ++ t :: rest) (Or.inr (Or.inr hu))
  obtain ⟨ds, hds, -, hread'⟩ := hes more t rest hmore ht
  have hcut : us ++ u :: more ++ t :: rest = us ++ u :: (more ++ t :: rest) := by simp
  have harg : argument (us ++ u :: more ++ t :: rest) = some (d :: ds, rest) := by
    rw [hcut, argument_eq, hread]
    simp only [Option.bind_some, after, hu, reduceCtorEq, if_false, if_true,
      hread' (List.cons_ne_nil _ _), Option.map_some]
  refine ⟨d :: ds, by rw [unplacedAll, unplacedAll, hd', hds], ?_, fun _ => harg⟩
  rw [hcut, arguments_eq_argument hd hus, ← hcut, harg]

/-- Every phrase that is derived is read, whatever follows that cannot belong to it. -/
theorem completes_of_derives {p : Phrase} {ws : List Lexeme} (h : Derives p ws) : Completes p ws := by
  induction h with
  | binary hl _ _ ihl ihr => exact completes_binary hl ihl ihr
  | operand hd ih => exact completes_level hd ih
  | @not o e ws _ ih =>
    intro ts rest hts hrest
    obtain ⟨t, ts, rfl, ht, hts⟩ := List.map_eq_cons_iff.1 hts
    obtain ⟨e', he, hread⟩ := ih ts rest hts hrest
    refine ⟨.not t.origin e', by rw [unplaced, unplaced, he], ?_⟩
    rw [List.cons_append, unary_cons, if_pos ht, hread]
    rfl
  | @chain e ws _ ih =>
    intro ts rest hts hrest
    obtain ⟨e', he, hread⟩ := ih ts rest hts (after_stop hrest)
    exact ⟨e', he, by rw [hread, accessors_stop hrest]⟩
  | @property o r name ws _ ih =>
    refine completes_accessor ih fun r' t u rest hr ht hu => ?_
    refine ⟨.property r'.origin r' name, by rw [unplaced, unplaced, hr], ?_⟩
    rw [accessors_cons, if_pos ht]
    simp only [hu]
  | @filter o r ws _ ih =>
    refine completes_accessor ih fun r' t u rest hr ht hu => ?_
    refine ⟨.filter r'.origin r', by rw [unplaced, unplaced, hr], ?_⟩
    rw [accessors_cons, if_pos ht]
    simp only [hu]
  | index _ _ ihe ihk => exact completes_index ihe ihk
  | parens _ ih => exact completes_parens ih
  | null => exact completes_name fun _ => rfl
  | true => exact completes_name fun _ => rfl
  | false => exact completes_name fun _ => rfl
  | @number o cs x hx =>
    refine completes_token rfl fun t rest ht _ => ⟨.literal t.origin (.number x), rfl, ?_⟩
    rw [primary_cons, ht]
    simp only [hx.eq_numberValue]
  | @string o v =>
    refine completes_token rfl fun t rest ht _ => ⟨.literal t.origin (.string v), rfl, ?_⟩
    rw [primary_cons, ht]
  | @var o name hname =>
    refine completes_name fun _ => ?_
    rw [ofName_unplaced_var hname]
    rfl
  | call _ ih => exact completes_call ih
  | noArgs =>
    intro ts t rest hts ht
    obtain rfl := List.map_eq_nil_iff.1 hts
    exact ⟨[], rfl, by rw [List.nil_append, arguments_cons, if_pos ht], fun h => absurd rfl h⟩
  | lastArg hd ih => exact completes_lastArg hd ih
  | moreArgs hd _ ihe ihes => exact completes_moreArgs hd ihe ihes

/-! ### All the tokens -/

theorem ofTokens?_eq_some_iff {ts : List Token} {e : Expr} :
    ofTokens? ts = some e ↔ level .or ts = some (e, []) := by
  unfold ofTokens? level
  constructor
  · intro h
    split at h <;> cases h
    rename_i heq
    rw [heq]
    rfl
  · intro h
    obtain ⟨⟨r, hr⟩, hread, rfl⟩ := Option.map_eq_some_iff.1 h
    rw [hread]

theorem complaint?_eq_none_iff {t : Token} :
    complaint? t = none ↔ ∀ cs, t.lexeme = .number cs → tooLarge cs = false := by
  unfold complaint?
  split
  · rename_i cs hcs
    rw [ite_eq_right_iff, hcs]
    constructor
    · intro h cs' heq
      cases heq
      exact Bool.eq_false_iff.2 fun hlarge => Option.some_ne_none _ (h hlarge)
    · intro h hlarge
      rw [h cs rfl] at hlarge
      cases hlarge
  · rename_i hother
    exact ⟨fun _ cs hcs => absurd hcs (hother cs), fun _ => rfl⟩

/-- Numbers denote the values that they are read with exactly when none is too large. -/
theorem denoting_iff {ts : List Token}
    (hnum : ∀ t ∈ ts, ∀ cs, t.lexeme = .number cs → Lexeme.IsNumeral cs) :
    Denoting ts ↔ ts.findSome? complaint? = none := by
  simp only [List.findSome?_eq_none_iff, complaint?_eq_none_iff]
  constructor
  · intro h t ht cs hcs
    exact (h t ht cs hcs).tooLarge
  · intro h t ht cs hcs
    exact Lexeme.denotes_numberValue (hnum t ht cs hcs) (h t ht cs hcs)

theorem denoting_of_derives {p : Phrase} {ts : List Token}
    (h : Derives p (ts.map Token.lexeme)) : Denoting ts := by
  intro t ht cs hcs
  have hmem : .number cs ∈ ts.map Token.lexeme := hcs ▸ List.mem_map_of_mem ht
  obtain ⟨x, hx⟩ := h.exists_denotes hmem
  rwa [hx.eq_numberValue]

/-- The tokens are an expression, with no number too large, exactly when their words derive it. -/
theorem ofTokens?_iff_derives {ts : List Token} {T : Expr}
    (hnum : ∀ t ∈ ts, ∀ cs, t.lexeme = .number cs → Lexeme.IsNumeral cs) :
    (∃ e, ofTokens? ts = some e ∧ ts.findSome? complaint? = none ∧ e.unplaced = T.unplaced) ↔
      Derives (.level .or T.unplaced) (ts.map Token.lexeme) := by
  constructor
  · rintro ⟨e, he, hsized, hT⟩
    obtain ⟨used, rfl, hd⟩ :=
      level_sound .or ts ((denoting_iff hnum).2 hsized) (ofTokens?_eq_some_iff.1 he)
    rw [List.append_nil, ← hT]
    exact hd.derives.unplaced
  · intro h
    obtain ⟨e, start, he, hread⟩ := completes_of_derives h ts [] rfl (stops_nil _)
    rw [List.append_nil, operators_nil] at hread
    exact ⟨e, ofTokens?_eq_some_iff.2 hread, (denoting_iff hnum).1 (denoting_of_derives h),
      he.trans (unplaced_unplaced T)⟩

end WorkflowAudit.Expr
