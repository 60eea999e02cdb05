import WorkflowAudit.Proofs.Expr.Origins

/-!
What the reader of tokens takes makes up what it gives. The readers are stated without the bounds that
make them total; on the tokens that it takes, each of them gives a phrase that stands in them, provided
that every number among them denotes the value that it is read with.
-/

namespace WorkflowAudit.Expr

/-! ### The readers, without the bounds on what they leave -/

/-- What `readLevel` gives. -/
def level (l : Level) (ts : List Token) : Option (Expr × List Token) :=
  (readLevel l ts).map Subtype.val

/-- What `readOperand` gives. -/
def operand (l : Level) (ts : List Token) : Option (Expr × List Token) :=
  (readOperand l ts).map Subtype.val

/-- What `readOperators` gives. -/
def operators (l : Level) (start : Origin) (lhs : Expr) (ts : List Token) :
    Option (Expr × List Token) :=
  (readOperators l start lhs ts).map Subtype.val

/-- What `readUnary` gives. -/
def unary (ts : List Token) : Option (Expr × List Token) :=
  (readUnary ts).map Subtype.val

/-- What `readPrimary` gives. -/
def primary (ts : List Token) : Option (Expr × List Token) :=
  (readPrimary ts).map Subtype.val

/-- What `readArguments` gives. -/
def arguments (ts : List Token) : Option (List Expr × List Token) :=
  (readArguments ts).map Subtype.val

/-- What `readArgument` gives. -/
def argument (ts : List Token) : Option (List Expr × List Token) :=
  (readArgument ts).map Subtype.val

/-- What `readAccessors` gives. -/
def accessors (head : Expr) (ts : List Token) : Option (Expr × List Token) :=
  (readAccessors head ts).map Subtype.val

/-- The tokens after the closing word, if it is next. -/
def after (closing : Lexeme) : List Token → Option (List Token)
  | [] => none
  | t :: ts => if t.lexeme = closing then some ts else none

theorem level_nil (l : Level) : level l [] = none := by
  rw [level, readLevel]; rfl

theorem level_cons (l : Level) (t : Token) (ts : List Token) : level l (t :: ts) =
    (operand l (t :: ts)).bind fun (lhs, left) => operators l t.origin lhs left := by
  rw [level, readLevel, operand]
  cases readOperand l (t :: ts) with
  | none => rfl
  | some r =>
    obtain ⟨⟨lhs, left⟩, hleft⟩ := r
    simp only [Option.map_some, Option.bind_some, operators]
    cases readOperators l t.origin lhs left <;> rfl

theorem operand_eq (l : Level) (ts : List Token) : operand l ts =
    match l.tighter with
    | some m => level m ts
    | none => unary ts := by
  rw [operand, readOperand]
  split <;> (rename_i h; simp [h, level, unary])

theorem operators_nil (l : Level) (start : Origin) (lhs : Expr) :
    operators l start lhs [] = some (lhs, []) := by
  rw [operators, readOperators]; rfl

theorem operators_cons (l : Level) (start : Origin) (lhs : Expr) (t : Token) (ts : List Token) :
    operators l start lhs (t :: ts) =
      match l.operator? t.lexeme with
      | none => some (lhs, t :: ts)
      | some op => (operand l ts).bind fun (rhs, left) =>
          operators l start (.binary start op lhs rhs) left := by
  rw [operators, readOperators, operand]
  cases l.operator? t.lexeme with
  | none => rfl
  | some op =>
    cases readOperand l ts with
    | none => rfl
    | some r =>
      obtain ⟨⟨rhs, left⟩, hleft⟩ := r
      simp only [Option.map_some, Option.bind_some, operators]
      cases readOperators l start (.binary start op lhs rhs) left <;> rfl

theorem unary_nil : unary [] = none := by
  rw [unary, readUnary]; rfl

theorem unary_cons (t : Token) (ts : List Token) : unary (t :: ts) =
    if t.lexeme = .not then (unary ts).map fun (e, left) => (.not t.origin e, left)
    else (primary (t :: ts)).bind fun (head, left) => accessors head left := by
  rw [unary, readUnary]
  split
  · rw [unary]
    cases readUnary ts <;> rfl
  · rw [primary]
    cases readPrimary (t :: ts) with
    | none => rfl
    | some r =>
      obtain ⟨⟨head, left⟩, hleft⟩ := r
      simp only [Option.map_some, Option.bind_some, accessors]
      cases readAccessors head left <;> rfl

theorem primary_nil : primary [] = none := by
  rw [primary, readPrimary]; rfl

theorem primary_cons (t : Token) (ts : List Token) : primary (t :: ts) =
    match t.lexeme with
    | .number text => some (.literal t.origin (.number (Lexeme.numberValue text)), ts)
    | .string value => some (.literal t.origin (.string value), ts)
    | .name name =>
      match after .openParen ts with
      | some more => (arguments more).map fun (args, left) => (.call t.origin name args, left)
      | none => some (ofName t.origin name, ts)
    | .openParen => (level .or ts).bind fun (e, left) => (after .closeParen left).map (e, ·)
    | _ => none := by
  rw [primary, readPrimary]
  cases t.lexeme with
  | name name =>
    cases ts with
    | nil => rfl
    | cons u more =>
      simp only [after]
      split
      · simp only [arguments]
        cases readArguments more <;> rfl
      · rfl
  | openParen =>
    simp only [level]
    cases readLevel .or ts with
    | none => rfl
    | some r =>
      obtain ⟨⟨e, left⟩, hleft⟩ := r
      cases left with
      | nil => rfl
      | cons u left =>
        simp only [after, Option.map_some, Option.bind_some]
        split <;> rfl
  | _ => rfl

theorem arguments_nil : arguments [] = none := by
  rw [arguments, readArguments]; rfl

theorem arguments_cons (t : Token) (ts : List Token) : arguments (t :: ts) =
    if t.lexeme = .closeParen then some ([], ts) else argument (t :: ts) := by
  rw [arguments, readArguments]
  split <;> rfl

theorem argument_eq (ts : List Token) : argument ts =
    (level .or ts).bind fun (e, left) =>
      match after .closeParen left, after .comma left with
      | some left, _ => some ([e], left)
      | none, some left => (argument left).map fun (es, left) => (e :: es, left)
      | none, none => none := by
  rw [argument, readArgument, level]
  cases readLevel .or ts with
  | none => rfl
  | some r =>
    obtain ⟨⟨e, left⟩, hleft⟩ := r
    cases left with
    | nil => rfl
    | cons u left =>
      simp only [after, Option.map_some, Option.bind_some]
      split
      · rfl
      · split
        · simp only [argument]
          cases readArgument left <;> rfl
        · rfl

theorem accessors_nil (head : Expr) : accessors head [] = some (head, []) := by
  rw [accessors, readAccessors]; rfl

theorem accessors_cons (head : Expr) (t : Token) (ts : List Token) : accessors head (t :: ts) =
    if t.lexeme = .dot then
      match ts with
      | [] => none
      | u :: left =>
        match u.lexeme with
        | .property name => accessors (.property head.origin head name) left
        | .star => accessors (.filter head.origin head) left
        | _ => none
    else if t.lexeme = .openBracket then
      (level .or ts).bind fun (key, left) =>
        (after .closeBracket left).bind (accessors (.index head.origin head key))
    else some (head, t :: ts) := by
  rw [accessors, readAccessors.eq_def]
  dsimp only
  split
  · cases ts with
    | nil => rfl
    | cons u left =>
      obtain ⟨w, o⟩ := u
      cases w with
      | property name =>
        simp only [accessors]
        cases readAccessors (.property head.origin head name) left <;> rfl
      | star =>
        simp only [accessors]
        cases readAccessors (.filter head.origin head) left <;> rfl
      | _ => rfl
  · split
    · simp only [level]
      cases readLevel .or ts with
      | none => rfl
      | some r =>
        obtain ⟨⟨key, left⟩, hleft⟩ := r
        cases left with
        | nil => rfl
        | cons u left =>
          simp only [after, Option.map_some, Option.bind_some]
          split
          · simp only [Option.bind_some, accessors]
            cases readAccessors (.index head.origin head key) left <;> rfl
          · rfl
    · rfl

/-! ### What is read stands in the tokens -/

theorem length_lt {ts left : List Token} {r : Option (Read ts)} {e : Expr}
    (h : r.map Subtype.val = some (e, left)) : left.length < ts.length := by
  obtain ⟨⟨_, hr⟩, -, rfl⟩ := Option.map_eq_some_iff.1 h
  exact hr

theorem after_eq_some {closing : Lexeme} {ts left : List Token} (h : after closing ts = some left) :
    ∃ t, ts = t :: left ∧ t.lexeme = closing := by
  cases ts with
  | nil => cases h
  | cons t ts =>
    rw [after] at h
    split at h <;> cases h
    rename_i ht
    exact ⟨t, rfl, ht⟩

/-- The tokens before `left` make up the phrase. -/
def Consumed (p : Phrase) (ts left : List Token) : Prop :=
  ∃ used, ts = used ++ left ∧ Stands p used

/-- Each number among the tokens denotes the value that it is read with. -/
def Denoting (ts : List Token) : Prop :=
  ∀ t ∈ ts, ∀ cs, t.lexeme = .number cs → Lexeme.Denotes cs (Lexeme.numberValue cs)

theorem Denoting.tail {t : Token} {ts : List Token} (h : Denoting (t :: ts)) : Denoting ts :=
  fun u hu => h u (List.mem_cons_of_mem _ hu)

theorem Denoting.right {us ts : List Token} (h : Denoting (us ++ ts)) : Denoting ts :=
  fun u hu => h u (List.mem_append_right _ hu)

/-- A name alone makes up the literal or variable that it stands for. -/
theorem stands_ofName {t : Token} {name : String} (ht : t.lexeme = .name name) :
    Stands (.chain (ofName t.origin name)) [t] := by
  unfold ofName
  split
  · rename_i h; exact .null (h ▸ ht)
  · split
    · rename_i h; exact .true (h ▸ ht)
    · split
      · rename_i h; exact .false (h ▸ ht)
      · rename_i h₁ h₂ h₃
        exact .var ht (by simp [keywords, h₁, h₂, h₃])

/-- What is taken before something shorter is left begins with the first token. -/
theorem head?_used {t : Token} {ts used left : List Token} (h : t :: ts = used ++ left)
    (hlen : left.length < (t :: ts).length) : used.head? = some t := by
  cases used with
  | nil =>
    rw [List.nil_append] at h
    exact absurd hlen (h ▸ Nat.lt_irrefl _)
  | cons u us => rw [(List.cons.inj h).1, List.head?_cons]

theorem operator?_eq_some {l : Level} {w : Lexeme} {op : BinaryOp} (h : l.operator? w = some op) :
    w = .op op ∧ op ∈ l.operators := by
  unfold Level.operator? at h
  split at h
  · split at h <;> cases h
    rename_i hl
    exact ⟨rfl, Level.mem_operators.2 hl⟩
  · cases h

mutual

theorem level_sound (l : Level) (ts : List Token) {e : Expr} {left : List Token} (hs : Denoting ts)
    (h : level l ts = some (e, left)) : Consumed (.level l e) ts left := by
  match ts with
  | [] => rw [level_nil] at h; cases h
  | t :: ts =>
    rw [level_cons] at h
    obtain ⟨⟨lhs, mid⟩, hlhs, hops⟩ := Option.bind_eq_some_iff.1 h
    have hlen := length_lt hlhs
    obtain ⟨used, hused, hd⟩ := operand_sound l (t :: ts) hs hlhs
    obtain ⟨more, rfl, hd'⟩ := operators_sound l t lhs mid (hused ▸ hs).right hops (.operand hd)
      (head?_used hused hlen)
    exact ⟨used ++ more, by rw [hused, List.append_assoc], hd'⟩
termination_by (ts.length, 3 * l.rank + 2)

theorem operand_sound (l : Level) (ts : List Token) {e : Expr} {left : List Token} (hs : Denoting ts)
    (h : operand l ts = some (e, left)) : Consumed (.operand l e) ts left := by
  rw [operand_eq] at h
  cases hm : l.tighter with
  | some m =>
    have := Level.rank_tighter hm
    rw [hm] at h
    rw [Phrase.operand_of_tighter hm]
    exact level_sound m ts hs h
  | none =>
    have := l.rank_pos
    rw [hm] at h
    rw [Phrase.operand_of_tightest hm]
    exact unary_sound ts hs h
termination_by (ts.length, 3 * l.rank + 1)

theorem operators_sound (l : Level) (first : Token) (lhs : Expr) (ts : List Token) {e : Expr}
    {left : List Token} (hs : Denoting ts) (h : operators l first.origin lhs ts = some (e, left))
    {us : List Token} (hlhs : Stands (.level l lhs) us) (hfirst : us.head? = some first) :
    ∃ used, ts = used ++ left ∧ Stands (.level l e) (us ++ used) := by
  match ts with
  | [] =>
    rw [operators_nil] at h
    cases h
    exact ⟨[], rfl, by simpa using hlhs⟩
  | t :: ts =>
    rw [operators_cons] at h
    split at h
    · cases h
      exact ⟨[], rfl, by simpa using hlhs⟩
    · rename_i op hop
      obtain ⟨⟨rhs, mid⟩, hrhs, hops⟩ := Option.bind_eq_some_iff.1 h
      have hlen := length_lt hrhs
      obtain ⟨hlex, hlevel⟩ := operator?_eq_some hop
      obtain ⟨used, rfl, hd⟩ := operand_sound l ts hs.tail hrhs
      have hfirst' : (us ++ t :: used).head? = some first := by
        rw [List.head?_append, hfirst, Option.some_or]
      obtain ⟨more, rfl, hd'⟩ := operators_sound l first (.binary first.origin op lhs rhs) mid
        hs.tail.right hops (.binary hlevel hfirst hlex hlhs hd) hfirst'
      refine ⟨t :: used ++ more, by simp, ?_⟩
      rwa [← List.append_assoc]
termination_by (ts.length, 3 * l.rank + 2)
decreasing_by
  · simp_wf; omega
  · simp_wf; simp at hlen; omega

theorem unary_sound (ts : List Token) {e : Expr} {left : List Token} (hs : Denoting ts)
    (h : unary ts = some (e, left)) : Consumed (.unary e) ts left := by
  match ts with
  | [] => rw [unary_nil] at h; cases h
  | t :: ts =>
    rw [unary_cons] at h
    split at h
    · rename_i ht
      obtain ⟨⟨e', left'⟩, he, heq⟩ := Option.map_eq_some_iff.1 h
      cases heq
      obtain ⟨used, rfl, hd⟩ := unary_sound ts hs.tail he
      exact ⟨t :: used, rfl, .not ht hd⟩
    · obtain ⟨⟨head, mid⟩, hhead, hacc⟩ := Option.bind_eq_some_iff.1 h
      have hlen := length_lt hhead
      obtain ⟨used, hused, hd⟩ := primary_sound (t :: ts) hs hhead
      obtain ⟨more, rfl, hd'⟩ := accessors_sound head mid (hused ▸ hs).right hacc hd
      exact ⟨used ++ more, by rw [hused, List.append_assoc], .chain hd'⟩
termination_by (ts.length, 1)

theorem primary_sound (ts : List Token) {e : Expr} {left : List Token} (hs : Denoting ts)
    (h : primary ts = some (e, left)) : Consumed (.chain e) ts left := by
  match ts with
  | [] => rw [primary_nil] at h; cases h
  | t :: ts =>
    rw [primary_cons] at h
    split at h
    · rename_i text ht
      cases h
      exact ⟨[t], rfl, .number ht (hs t (List.mem_cons_self ..) text ht)⟩
    · rename_i value ht
      cases h
      exact ⟨[t], rfl, .string ht⟩
    · rename_i name ht
      split at h
      · rename_i more hmore
        obtain ⟨u, rfl, hu⟩ := after_eq_some hmore
        obtain ⟨⟨args, left'⟩, hargs, heq⟩ := Option.map_eq_some_iff.1 h
        cases heq
        obtain ⟨used, v, rfl, hv, hd⟩ := arguments_sound more hs.tail.tail hargs
        exact ⟨t :: u :: (used ++ [v]), by simp, .call ht hu hv hd⟩
      · cases h
        exact ⟨[t], rfl, stands_ofName ht⟩
    · rename_i ht
      obtain ⟨⟨e', mid⟩, he, hafter⟩ := Option.bind_eq_some_iff.1 h
      obtain ⟨left', hleft, heq⟩ := Option.map_eq_some_iff.1 hafter
      cases heq
      obtain ⟨u, rfl, hu⟩ := after_eq_some hleft
      obtain ⟨used, rfl, hd⟩ := level_sound .or ts hs.tail he
      exact ⟨t :: (used ++ [u]), by simp, .parens ht hu hd⟩
    · cases h
termination_by (ts.length, 0)

theorem arguments_sound (ts : List Token) {es : List Expr} {left : List Token} (hs : Denoting ts)
    (h : arguments ts = some (es, left)) : ∃ used t, ts = used ++ t :: left ∧
      t.lexeme = .closeParen ∧ Stands (.args es) used := by
  match ts with
  | [] => rw [arguments_nil] at h; cases h
  | t :: ts =>
    rw [arguments_cons] at h
    split at h
    · rename_i ht
      cases h
      exact ⟨[], t, rfl, ht, .noArgs⟩
    · obtain ⟨used, u, hused, hu, hne, hd⟩ := argument_sound (t :: ts) hs h
      exact ⟨used, u, hused, hu, hd⟩
termination_by (ts.length, 16)

theorem argument_sound (ts : List Token) {es : List Expr} {left : List Token} (hs : Denoting ts)
    (h : argument ts = some (es, left)) : ∃ used t, ts = used ++ t :: left ∧
      t.lexeme = .closeParen ∧ es ≠ [] ∧ Stands (.args es) used := by
  rw [argument_eq] at h
  obtain ⟨⟨e, mid⟩, he, hmore⟩ := Option.bind_eq_some_iff.1 h
  have hlen := length_lt he
  obtain ⟨used, hused, hd⟩ := level_sound .or ts hs he
  dsimp only at hmore
  split at hmore
  · rename_i left' hclose
    cases hmore
    obtain ⟨t, rfl, ht⟩ := after_eq_some hclose
    exact ⟨used, t, hused, ht, List.cons_ne_nil _ _, .lastArg hd⟩
  · rename_i left' _ hcomma
    obtain ⟨t, rfl, ht⟩ := after_eq_some hcomma
    obtain ⟨⟨es', left''⟩, hes, heq⟩ := Option.map_eq_some_iff.1 hmore
    cases heq
    obtain ⟨more, u, rfl, hu, hne, hd'⟩ := argument_sound left' (hused ▸ hs).right.tail hes
    obtain ⟨e', es, rfl⟩ := List.exists_cons_of_ne_nil hne
    exact ⟨used ++ t :: more, u, by simp [hused], hu, List.cons_ne_nil _ _, .moreArgs ht hd hd'⟩
  · cases hmore
termination_by (ts.length, 15)

theorem accessors_sound (head : Expr) (ts : List Token) {e : Expr} {left : List Token} (hs : Denoting ts)
    (h : accessors head ts = some (e, left)) {us : List Token} (hd : Stands (.chain head) us) :
    ∃ used, ts = used ++ left ∧ Stands (.chain e) (us ++ used) := by
  match ts with
  | [] =>
    rw [accessors_nil] at h
    cases h
    exact ⟨[], rfl, by simpa using hd⟩
  | t :: ts =>
    rw [accessors_cons] at h
    split at h
    · rename_i ht
      split at h
      · cases h
      · rename_i u mid
        split at h
        · rename_i name hu
          obtain ⟨used, rfl, hd'⟩ := accessors_sound _ mid hs.tail.tail h (.property ht hu hd)
          exact ⟨t :: u :: used, rfl, by simpa using hd'⟩
        · rename_i hu
          obtain ⟨used, rfl, hd'⟩ := accessors_sound _ mid hs.tail.tail h (.filter ht hu hd)
          exact ⟨t :: u :: used, rfl, by simpa using hd'⟩
        · cases h
    · split at h
      · rename_i ht
        obtain ⟨⟨key, mid⟩, hkey, hafter⟩ := Option.bind_eq_some_iff.1 h
        obtain ⟨mid', hmid, hmore⟩ := Option.bind_eq_some_iff.1 hafter
        obtain ⟨u, rfl, hu⟩ := after_eq_some hmid
        have hlen := length_lt hkey
        obtain ⟨used, rfl, hd'⟩ := level_sound .or ts hs.tail hkey
        obtain ⟨more, rfl, hd''⟩ := accessors_sound _ mid' hs.tail.right.tail hmore
          (.index ht hu hd hd')
        exact ⟨t :: (used ++ u :: more), by simp, by simpa using hd''⟩
      · cases h
        exact ⟨[], rfl, by simpa using hd⟩
termination_by (ts.length, 0)

end

end WorkflowAudit.Expr
