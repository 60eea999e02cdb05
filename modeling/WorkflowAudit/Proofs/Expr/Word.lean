import WorkflowAudit.Expr.Lexeme
import WorkflowAudit.Proofs.Lists.Basic

/-!
The words of the expression language, each by the texts that spell it. The widths that the reader
counts at the front of a text are those of the longest number and of the longest string there.
-/

namespace WorkflowAudit.Lexeme

/-- A name: a letter or `_`, then letters, digits, `_` and `-`. -/
def IsName : List Char → Prop
  | [] => False
  | c :: cs => (c.isAlpha || c = '_') ∧ ∀ x ∈ cs, x.isAlphanum || x = '_' || x = '-'

instance : DecidablePred IsName
  | [] => .isFalse id
  | c :: cs => decidable_of_iff (isNameStart c ∧ cs.all isNameChar) (by rw [List.all_eq_true]; rfl)

/-- A property name: letters, digits, `_` and `-`. -/
def IsProperty (cs : List Char) : Prop :=
  cs ≠ [] ∧ ∀ c ∈ cs, c.isAlphanum || c = '_' || c = '-'

instance : DecidablePred IsProperty :=
  fun cs => decidable_of_iff (cs ≠ [] ∧ cs.all isNameChar) (by rw [List.all_eq_true]; rfl)

/-- The digits, each at the place of its value. -/
def digits : List Char :=
  ['0', '1', '2', '3', '4', '5', '6', '7', '8', '9', 'a', 'b', 'c', 'd', 'e', 'f']

/-- A hexadecimal digit, in either case. -/
def isHexadecimal (c : Char) : Bool :=
  digits.contains c.toLower

/-- The number that digits write in a base, the most significant of them first. -/
def placeValue (base : Nat) (ds : List Char) : Nat :=
  Nat.ofDigits base (ds.reverse.map fun c => digits.idxOf c.toLower)

/-- One or more digits. -/
def IsDigits (isDigit : Char → Bool) (cs : List Char) : Prop :=
  cs ≠ [] ∧ ∀ c ∈ cs, isDigit c

instance (isDigit : Char → Bool) : DecidablePred (IsDigits isDigit) :=
  fun cs => decidable_of_iff (cs ≠ [] ∧ cs.all isDigit) (by rw [List.all_eq_true]; rfl)

/-- A fraction with its digits, perhaps none: a point and digits. -/
inductive IsFraction : List Char → (ds : List Char) → Prop
  | none : IsFraction [] []
  | point {ds : List Char} : IsDigits Char.isDigit ds → IsFraction ('.' :: ds) ds

/-- An exponent with its value, perhaps none: `e` or `E`, perhaps a sign, and digits. -/
inductive IsExponent : List Char → (power : Int) → Prop
  | none : IsExponent [] 0
  | power {e : Char} {sign ds : List Char} : e = 'e' ∨ e = 'E' →
      sign = [] ∨ sign = ['+'] ∨ sign = ['-'] → IsDigits Char.isDigit ds →
      IsExponent (e :: (sign ++ ds)) (if sign = ['-'] then -placeValue 10 ds else placeValue 10 ds)

/-- A number: `0x` and hexadecimal digits, or decimal digits, perhaps negative, with fraction and
    exponent. -/
inductive IsNumeral : List Char → Prop
  | hex {ds : List Char} : IsDigits isHexadecimal ds → IsNumeral ('0' :: 'x' :: ds)
  | decimal {sign ds fraction fs exponent : List Char} {power : Int} : sign = [] ∨ sign = ['-'] →
      IsDigits Char.isDigit ds → IsFraction fraction fs → IsExponent exponent power →
      IsNumeral (sign ++ (ds ++ (fraction ++ exponent)))

/-- The characters of a string with each quote written twice. -/
def doubled : List Char → List Char
  | [] => []
  | c :: cs => if c = '\'' then '\'' :: '\'' :: doubled cs else c :: doubled cs

/-- The texts that spell a word. After a dot, property names stand in the place of names and
    numbers. -/
inductive Spells : (afterDot : Bool) → Lexeme → List Char → Prop
  | name {cs : List Char} : IsName cs → Spells false (.name (String.ofList cs)) cs
  | property {cs : List Char} : IsProperty cs → Spells true (.property (String.ofList cs)) cs
  | number {cs : List Char} : IsNumeral cs → Spells false (.number cs) cs
  | string {d : Bool} (v : List Char) :
      Spells d (.string (String.ofList v)) ('\'' :: (doubled v ++ ['\'']))
  | dot {d : Bool} : Spells d .dot ['.']
  | star {d : Bool} : Spells d .star ['*']
  | comma {d : Bool} : Spells d .comma [',']
  | openParen {d : Bool} : Spells d .openParen ['(']
  | closeParen {d : Bool} : Spells d .closeParen [')']
  | openBracket {d : Bool} : Spells d .openBracket ['[']
  | closeBracket {d : Bool} : Spells d .closeBracket [']']
  | not {d : Bool} : Spells d .not ['!']
  | op {d : Bool} (o : BinaryOp) : Spells d (.op o) o.symbol.toList

/-! ### Digits -/

theorem toNat_lt_of_isHexDigit {c : Char} (h : Text.isHexDigit c) : c.toNat < 128 := by
  simp only [Text.isHexDigit, Char.isDigit, Bool.or_eq_true, Bool.and_eq_true, decide_eq_true_eq, Char.le_def,
    UInt32.le_iff_toNat_le, ge_iff_le] at h
  have : '9'.val.toNat = 57 := rfl
  have : 'f'.val.toNat = 102 := rfl
  have : 'F'.val.toNat = 70 := rfl
  rw [Char.toNat]
  omega

theorem toNat_lt_of_isHexadecimal {c : Char} (h : isHexadecimal c) : c.toNat < 128 := by
  have hsmall : ∀ d ∈ digits, d.toNat < 128 := by simp [digits]
  have hlower := hsmall _ (List.contains_iff_mem.1 h)
  rw [Text.toNat_toLower] at hlower
  split at hlower <;> omega

/-- A digit has the value of its place. -/
theorem hexDigit_of_toNat_lt {c : Char} (h : c.toNat < 128) : Text.isHexDigit c = isHexadecimal c ∧
    (isHexadecimal c → Text.hexDigitValue c = digits.idxOf c.toLower) ∧
    (c.isDigit → c.toNat - '0'.toNat = digits.idxOf c.toLower) := by
  have hall : ∀ i : Fin 128, Text.isHexDigit (Char.ofNat i) = isHexadecimal (Char.ofNat i) ∧
      (isHexadecimal (Char.ofNat i) →
        Text.hexDigitValue (Char.ofNat i) = digits.idxOf (Char.ofNat i).toLower) ∧
      ((Char.ofNat i).isDigit →
        (Char.ofNat i).toNat - '0'.toNat = digits.idxOf (Char.ofNat i).toLower) := by
    decide +kernel
  have hc := hall ⟨c.toNat, h⟩
  rwa [Char.ofNat_toNat] at hc

theorem isHexDigit_eq_isHexadecimal : Text.isHexDigit = isHexadecimal := by
  refine funext fun c => Bool.eq_iff_iff.2 ⟨fun h => ?_, fun h => ?_⟩
  · rwa [← (hexDigit_of_toNat_lt (toNat_lt_of_isHexDigit h)).1]
  · rwa [(hexDigit_of_toNat_lt (toNat_lt_of_isHexadecimal h)).1]

theorem foldl_eq_ofDigits (base : Nat) (value : Char → Nat) (ds : List Char) :
    ds.foldl (fun n c => base * n + value c) 0 = Nat.ofDigits base (ds.reverse.map value) := by
  induction ds using List.reverseRecOn with
  | nil => rfl
  | append_singleton ds c ih =>
    rw [List.foldl_append, List.reverse_append, List.foldl_cons, List.foldl_nil, ih, List.reverse_singleton,
      List.singleton_append, List.map_cons, Nat.ofDigits_cons, Nat.add_comm]

theorem hexValue_eq {ds : List Char} (h : ∀ c ∈ ds, isHexadecimal c) :
    Text.hexValue ds = placeValue 16 ds := by
  rw [Text.hexValue, foldl_eq_ofDigits, placeValue]
  congr 1
  refine List.map_congr_left fun c hc => ?_
  have hdigit := h c (List.mem_reverse.1 hc)
  exact (hexDigit_of_toNat_lt (toNat_lt_of_isHexadecimal hdigit)).2.1 hdigit

theorem decimalValue_eq {ds : List Char} (h : ∀ c ∈ ds, c.isDigit) :
    Text.decimalValue ds = placeValue 10 ds := by
  rw [Text.decimalValue, foldl_eq_ofDigits, placeValue]
  congr 1
  refine List.map_congr_left fun c hc => ?_
  have hdigit := h c (List.mem_reverse.1 hc)
  have hhex : Text.isHexDigit c := by simp [Text.isHexDigit, hdigit]
  exact (hexDigit_of_toNat_lt (toNat_lt_of_isHexDigit hhex)).2.2 hdigit

theorem digitsWidth_append {ds rest : List Char} (h : ∀ c ∈ ds, c.isDigit) :
    digitsWidth (ds ++ rest) = ds.length + digitsWidth rest := by
  rw [digitsWidth, List.takeWhile_append_of_pos h, List.length_append, digitsWidth]

theorem digitsWidth_cons {c : Char} {cs : List Char} (h : c.isDigit = false) :
    digitsWidth (c :: cs) = 0 := by
  simp [digitsWidth, h]

theorem digitsWidth_le (cs : List Char) : digitsWidth cs ≤ cs.length :=
  List.length_takeWhile_le ..

theorem take_digitsWidth (cs : List Char) : cs.take (digitsWidth cs) = cs.takeWhile Char.isDigit :=
  List.take_length_takeWhile ..

theorem isDigit_of_mem_take {cs : List Char} {c : Char} (h : c ∈ cs.take (digitsWidth cs)) :
    c.isDigit := by
  rw [take_digitsWidth] at h
  exact List.mem_takeWhile_imp h

/-- Digits at the front are counted, and at least one is there if the count is positive. -/
theorem isDigits_take {cs : List Char} {n : Nat} (h : digitsWidth cs = n + 1) :
    IsDigits Char.isDigit (cs.take (n + 1)) := by
  refine ⟨fun hnil => ?_, fun c hc => isDigit_of_mem_take (h ▸ hc)⟩
  have := digitsWidth_le cs
  have := congrArg List.length hnil
  simp only [List.length_take, List.length_nil] at this
  omega

/-! ### Fractions and exponents -/

theorem fractionWidth_le : ∀ cs : List Char, fractionWidth cs ≤ cs.length := by
  intro cs
  unfold fractionWidth
  split
  · rename_i ds
    have := digitsWidth_le ds
    split
    · exact Nat.zero_le _
    · rw [List.length_cons]; omega
  · exact Nat.zero_le _

theorem signWidth_cases (cs : List Char) :
    (signWidth cs = 0 ∧ cs.take (signWidth cs) = []) ∨
      (signWidth cs = 1 ∧ (cs.take (signWidth cs) = ['+'] ∨ cs.take (signWidth cs) = ['-'])) := by
  fun_cases signWidth cs with
  | case1 _ => exact Or.inr ⟨rfl, Or.inl rfl⟩
  | case2 _ => exact Or.inr ⟨rfl, Or.inr rfl⟩
  | case3 => exact Or.inl ⟨rfl, rfl⟩

theorem signWidth_le (cs : List Char) : signWidth cs ≤ cs.length := by
  rcases signWidth_cases cs with ⟨h, _⟩ | ⟨h, ht⟩
  · omega
  · rcases ht with ht | ht <;> cases cs <;> simp_all

theorem exponentWidth_le : ∀ cs : List Char, exponentWidth cs ≤ cs.length
  | [] => Nat.le_refl _
  | e :: cs => by
    have hsign := signWidth_le cs
    have hdigits := digitsWidth_le (cs.drop (signWidth cs))
    rw [List.length_drop] at hdigits
    rw [exponentWidth]
    split
    · split
      · exact Nat.zero_le _
      · rw [List.length_cons]; omega
    · exact Nat.zero_le _

theorem exists_isFraction_take (cs : List Char) : ∃ fs, IsFraction (cs.take (fractionWidth cs)) fs := by
  unfold fractionWidth
  split
  · rename_i ds
    split
    · exact ⟨[], .none⟩
    · rename_i n hn
      exact ⟨_, .point (isDigits_take hn)⟩
  · exact ⟨[], .none⟩

theorem exists_isExponent_take : ∀ cs : List Char,
    ∃ power, IsExponent (cs.take (exponentWidth cs)) power
  | [] => ⟨0, .none⟩
  | e :: cs => by
    rw [exponentWidth]
    split
    · rename_i he
      split
      · exact ⟨0, .none⟩
      · rename_i n hn
        have hsplit : (e :: cs).take (signWidth cs + n + 2) =
            e :: (cs.take (signWidth cs) ++ (cs.drop (signWidth cs)).take (n + 1)) := by
          rw [← List.take_add, ← List.take_succ_cons]; congr 1
        rw [hsplit]
        refine ⟨_, .power (by simpa using he) ?_ (isDigits_take hn)⟩
        rcases signWidth_cases cs with ⟨_, h⟩ | ⟨_, h⟩
        · exact Or.inl h
        · exact Or.inr h
    · exact ⟨0, .none⟩

/-- What begins a fraction or an exponent is no digit. -/
theorem digitsWidth_tail {f fs x : List Char} {k : Int} (hf : IsFraction f fs) (hx : IsExponent x k)
    (hne : f ++ x ≠ []) (rest : List Char) : digitsWidth (f ++ x ++ rest) = 0 := by
  cases hf with
  | point _ => exact digitsWidth_cons rfl
  | none =>
    cases hx with
    | none => exact absurd rfl hne
    | power he _ _ =>
      rcases he with rfl | rfl <;> exact digitsWidth_cons rfl

theorem signWidth_append {sign ds rest : List Char} (hs : sign = [] ∨ sign = ['+'] ∨ sign = ['-'])
    (hds : IsDigits Char.isDigit ds) : signWidth (sign ++ ds ++ rest) = sign.length := by
  rcases hs with rfl | rfl | rfl
  · obtain ⟨hne, hall⟩ := hds
    cases ds with
    | nil => exact absurd rfl hne
    | cons d ds =>
      have hd := hall d (List.mem_cons_self ..)
      unfold signWidth
      split
      · rename_i heq; cases heq; cases hd
      · rename_i heq; cases heq; cases hd
      · rfl
  · rfl
  · rfl

theorem exponent_le_width {x : List Char} {k : Int} (hx : IsExponent x k) (rest : List Char) :
    x.length ≤ exponentWidth (x ++ rest) := by
  cases hx with
  | none => exact Nat.zero_le _
  | @power e sign ds he hsign hds =>
    have hwidth : digitsWidth (ds ++ rest) = ds.length + digitsWidth rest := digitsWidth_append hds.2
    have hpos : 0 < ds.length := List.length_pos_iff.2 hds.1
    have hdrop : (sign ++ ds ++ rest).drop sign.length = ds ++ rest := by
      rw [List.append_assoc, List.drop_left]
    rw [List.cons_append, exponentWidth, if_pos (by simpa using he), signWidth_append hsign hds, hdrop]
    split
    · omega
    · rw [List.length_cons, List.length_append]; omega

theorem fractionWidth_exponent {x : List Char} {k : Int} (hx : IsExponent x k) (hne : x ≠ [])
    (rest : List Char) :
    fractionWidth (x ++ rest) = 0 := by
  cases hx with
  | none => exact absurd rfl hne
  | power he _ _ => rcases he with rfl | rfl <;> rfl

theorem fractionWidth_point {ds : List Char} (hds : IsDigits Char.isDigit ds) (rest : List Char) :
    fractionWidth ('.' :: ds ++ rest) = ds.length + digitsWidth rest + 1 := by
  have hpos : 0 < ds.length := List.length_pos_iff.2 hds.1
  have hwidth : digitsWidth (ds ++ rest) = ds.length + digitsWidth rest := digitsWidth_append hds.2
  rw [List.cons_append, fractionWidth]
  split
  · omega
  · omega

theorem tailWidth_le (cs : List Char) : tailWidth cs ≤ cs.length := by
  have hf := fractionWidth_le cs
  have hx := exponentWidth_le (cs.drop (fractionWidth cs))
  rw [List.length_drop] at hx
  rw [tailWidth]
  omega

theorem tail_le_width {f fs x : List Char} {k : Int} (hf : IsFraction f fs) (hx : IsExponent x k)
    (rest : List Char) :
    (f ++ x).length ≤ tailWidth (f ++ x ++ rest) := by
  have hexp := exponent_le_width hx rest
  rw [tailWidth]
  cases hf with
  | none =>
    rw [List.nil_append]
    by_cases hne : x = []
    · rw [hne]; exact Nat.zero_le _
    · rw [fractionWidth_exponent hx hne, List.drop_zero, Nat.zero_add]
      exact hexp
  | point hds =>
    rw [List.append_assoc, fractionWidth_point hds, List.length_append, List.length_cons]
    by_cases hne : x = []
    · rw [hne, List.length_nil]; omega
    · have hstop : digitsWidth (x ++ rest) = 0 := digitsWidth_tail .none hx hne rest
      have hdrop : ('.' :: fs ++ (x ++ rest)).drop (fs.length + 0 + 1) = x ++ rest := by
        rw [List.cons_append, List.drop_succ_cons]; exact List.drop_left
      rw [hstop, hdrop]
      omega

/-! ### Numbers -/

theorem decimalWidth_le (cs : List Char) : decimalWidth cs ≤ cs.length := by
  have hd := digitsWidth_le cs
  have ht := tailWidth_le (cs.drop (digitsWidth cs))
  rw [List.length_drop] at ht
  rw [decimalWidth]
  omega

theorem decimal_le_width {ds f fs x : List Char} {k : Int} (hds : ∀ c ∈ ds, c.isDigit)
    (hf : IsFraction f fs) (hx : IsExponent x k) (rest : List Char) :
    (ds ++ (f ++ x)).length ≤ decimalWidth (ds ++ (f ++ x) ++ rest) := by
  rw [decimalWidth, List.append_assoc, digitsWidth_append hds, List.length_append]
  by_cases hne : f ++ x = []
  · rw [hne, List.length_nil]; omega
  · rw [digitsWidth_tail hf hx hne rest, Nat.add_zero, List.drop_left]
    have := tail_le_width hf hx rest
    omega

/-- The digits, fraction and exponent that are counted as one number. -/
theorem take_decimalWidth (cs : List Char) : ∃ f fs x k, IsFraction f fs ∧ IsExponent x k ∧
    cs.take (decimalWidth cs) = cs.take (digitsWidth cs) ++ (f ++ x) := by
  obtain ⟨fs, hf⟩ := exists_isFraction_take (cs.drop (digitsWidth cs))
  obtain ⟨k, hx⟩ := exists_isExponent_take ((cs.drop (digitsWidth cs)).drop
    (fractionWidth (cs.drop (digitsWidth cs))))
  refine ⟨_, fs, _, k, hf, hx, ?_⟩
  rw [← List.take_add, ← List.take_add]
  rfl

theorem hexWidth_pos {c : Char} {cs : List Char} {n : Nat} (h : hexWidth c cs = n + 1) :
    c = '0' ∧ ∃ ds, cs = 'x' :: ds ∧ (ds.takeWhile Text.isHexDigit).length = n + 1 := by
  unfold hexWidth at h
  split at h
  · exact ⟨rfl, _, rfl, h⟩
  · cases h

theorem numberWidth_le (c : Char) (cs : List Char) : numberWidth c cs ≤ cs.length := by
  unfold numberWidth
  split
  · exact decimalWidth_le cs
  · rename_i n hn
    obtain ⟨-, ds, rfl, hlen⟩ := hexWidth_pos hn
    have := List.length_takeWhile_le Text.isHexDigit ds
    rw [List.length_cons]
    omega

theorem isNumeral_take {c : Char} (hc : c.isDigit) (cs : List Char) :
    IsNumeral (c :: cs.take (numberWidth c cs)) := by
  unfold numberWidth
  split
  · obtain ⟨f, fs, x, k, hf, hx, htake⟩ := take_decimalWidth cs
    rw [htake]
    refine @IsNumeral.decimal [] (c :: cs.take (digitsWidth cs)) f fs x k (Or.inl rfl) ⟨by simp, ?_⟩ hf hx
    intro d hd
    rcases List.mem_cons.1 hd with rfl | hd
    · exact hc
    · exact isDigit_of_mem_take hd
  · rename_i n hn
    obtain ⟨rfl, ds, rfl, hlen⟩ := hexWidth_pos hn
    have htake : ds.take (n + 1) = ds.takeWhile Text.isHexDigit :=
      hlen ▸ List.take_length_takeWhile ..
    rw [List.take_succ_cons, htake]
    rw [isHexDigit_eq_isHexadecimal] at hlen ⊢
    refine .hex ⟨fun hnil => ?_, fun d hd => List.mem_takeWhile_imp hd⟩
    rw [hnil] at hlen
    cases hlen

theorem isNumeral_take_negative {d : Char} (hd : d.isDigit) (ds : List Char) :
    IsNumeral ('-' :: d :: ds.take (decimalWidth ds)) := by
  obtain ⟨f, fs, x, k, hf, hx, htake⟩ := take_decimalWidth ds
  rw [htake]
  refine @IsNumeral.decimal ['-'] (d :: ds.take (digitsWidth ds)) f fs x k (Or.inr rfl) ⟨by simp, ?_⟩ hf hx
  intro c hc
  rcases List.mem_cons.1 hc with rfl | hc
  · exact hd
  · exact isDigit_of_mem_take hc

theorem decimalWidth_letter (cs : List Char) : decimalWidth ('x' :: cs) = 0 := by
  rw [decimalWidth, digitsWidth_cons rfl]
  rfl

/-- A number that is not negative is not longer than what is counted at its front. -/
theorem numeral_le_width {c : Char} {p : List Char} (h : IsNumeral (c :: p)) (hc : c ≠ '-')
    (rest : List Char) : p.length ≤ numberWidth c (p ++ rest) := by
  generalize hcp : c :: p = cs at h
  cases h with
  | hex hds =>
    obtain ⟨rfl, rfl⟩ := List.cons.inj hcp
    rename_i ds
    rw [← isHexDigit_eq_isHexadecimal] at hds
    have hle : ds.length ≤ hexWidth '0' ('x' :: ds ++ rest) := List.length_le_takeWhile hds.2
    have hpos : 0 < ds.length := List.length_pos_iff.2 hds.1
    unfold numberWidth
    split
    · omega
    · rw [List.length_cons]; omega
  | @decimal sign ds f fs x k hsign hds hf hx =>
    rcases hsign with rfl | rfl
    · obtain ⟨d, ds, rfl⟩ := List.exists_cons_of_ne_nil hds.1
      obtain ⟨rfl, rfl⟩ := List.cons.inj hcp
      have hle := decimal_le_width (fun e he => hds.2 e (List.mem_cons_of_mem _ he)) hf hx rest
      unfold numberWidth
      split
      · exact hle
      · rename_i n hn
        obtain ⟨-, es, hes, -⟩ := hexWidth_pos hn
        have hfront : ds ++ (f ++ x) ++ rest = 'x' :: es := hes
        rw [hfront, decimalWidth_letter] at hle
        exact Nat.le_trans hle (Nat.zero_le _)
    · exact absurd (List.cons.inj hcp).1 hc

/-- A number begins with a digit, or with a sign and a digit. -/
theorem numeral_cases {c : Char} {p : List Char} (h : IsNumeral (c :: p)) :
    c.isDigit ∨ c = '-' ∧ ∃ e q, p = e :: q ∧ e.isDigit ∧
      ∀ rest, q.length ≤ decimalWidth (q ++ rest) := by
  generalize hcp : c :: p = cs at h
  cases h with
  | hex _ =>
    obtain ⟨rfl, -⟩ := List.cons.inj hcp
    exact Or.inl rfl
  | @decimal sign ds f fs x k hsign hds hf hx =>
    obtain ⟨e, ds, rfl⟩ := List.exists_cons_of_ne_nil hds.1
    have he := hds.2 e (List.mem_cons_self ..)
    rcases hsign with rfl | rfl
    · obtain ⟨rfl, -⟩ := List.cons.inj hcp
      exact Or.inl he
    · obtain ⟨rfl, rfl⟩ := List.cons.inj hcp
      have hall : ∀ c ∈ ds, c.isDigit := fun c hc => hds.2 c (List.mem_cons_of_mem _ hc)
      exact Or.inr ⟨rfl, e, ds ++ (f ++ x), rfl, he, decimal_le_width hall hf hx⟩

/-! ### Strings -/

theorem doubled_append (u v : List Char) : doubled (u ++ v) = doubled u ++ doubled v := by
  induction u with
  | nil => rfl
  | cons c u ih =>
    rw [List.cons_append, doubled, doubled]
    split <;> simp [ih]

theorem stringBody_cons {c : Char} (hc : c ≠ '\'') (cs : List Char) :
    stringBody (c :: cs) = (stringBody cs).map fun (v, n) => (c :: v, n + 1) := by
  rw [stringBody]
  · intro _ h _; exact hc h
  · intro h; exact hc h

theorem stringBody_quote {rest : List Char} (h : rest.head? ≠ some '\'') :
    stringBody ('\'' :: rest) = some ([], 1) := by
  cases rest with
  | nil => rfl
  | cons c rest =>
    rw [stringBody]
    intro _ hc
    obtain ⟨rfl, -⟩ := List.cons.inj hc
    exact h rfl

/-- What stands before a text in a string is read before it. -/
theorem stringBody_doubled (v cs : List Char) : stringBody (doubled v ++ cs) =
    (stringBody cs).map fun (u, n) => (v ++ u, (doubled v).length + n) := by
  induction v with
  | nil =>
    rw [doubled, List.nil_append]
    cases stringBody cs <;> simp
  | cons c v ih =>
    rw [doubled]
    split
    · rename_i hc
      rw [List.cons_append, List.cons_append, stringBody, ih, Option.map_map, hc]
      congr 1
      funext ⟨u, n⟩
      simp only [Function.comp, List.cons_append, List.length_cons]
      congr 1
      omega
    · rename_i hc
      rw [List.cons_append, stringBody_cons hc, ih, Option.map_map]
      congr 1
      funext ⟨u, n⟩
      simp only [Function.comp, List.cons_append, List.length_cons]
      congr 1
      omega

/-- A string is read up to the first quote that is not doubled. -/
theorem stringBody_eq_some_iff {cs v : List Char} {n : Nat} : stringBody cs = some (v, n) ↔
    ∃ rest, cs = doubled v ++ '\'' :: rest ∧ n = (doubled v).length + 1 ∧
      rest.head? ≠ some '\'' := by
  constructor
  · intro h
    fun_induction stringBody cs generalizing v n with
    | case1 cs ih =>
      obtain ⟨⟨u, m⟩, hu, he⟩ := Option.map_eq_some_iff.1 h
      cases he
      obtain ⟨rest, rfl, rfl, hrest⟩ := ih hu
      exact ⟨rest, rfl, rfl, hrest⟩
    | case2 rest hne =>
      cases h
      refine ⟨rest, rfl, rfl, fun hq => ?_⟩
      obtain ⟨tail, rfl⟩ := List.head?_eq_some_iff.1 hq
      exact hne tail rfl
    | case3 c cs hc₁ hc₂ ih =>
      obtain ⟨⟨u, m⟩, hu, he⟩ := Option.map_eq_some_iff.1 h
      cases he
      obtain ⟨rest, rfl, rfl, hrest⟩ := ih hu
      have hc : c ≠ '\'' := fun hc => hc₂ hc
      refine ⟨rest, ?_, ?_, hrest⟩
      · rw [doubled, if_neg hc, List.cons_append]
      · rw [doubled, if_neg hc, List.length_cons]
    | case4 => cases h
  · rintro ⟨rest, rfl, rfl, hrest⟩
    rw [stringBody_doubled, stringBody_quote hrest]
    simp

/-- A string that ends at some quote is not longer than the string that is read, and is that one if it
    is as long. -/
theorem string_le_width {v u rest : List Char} {n : Nat}
    (h : stringBody (doubled v ++ '\'' :: rest) = some (u, n)) :
    (doubled v).length + 1 ≤ n ∧ (n = (doubled v).length + 1 → u = v) := by
  rw [stringBody_doubled] at h
  obtain ⟨⟨w, m⟩, hm, he⟩ := Option.map_eq_some_iff.1 h
  cases he
  obtain ⟨_, -, rfl, -⟩ := stringBody_eq_some_iff.1 hm
  refine ⟨by omega, fun hlen => ?_⟩
  cases w with
  | nil => exact List.append_nil v
  | cons c w =>
    have hpos : 0 < (doubled (c :: w)).length := by
      rw [doubled]; split <;> exact Nat.succ_pos _
    omega

end WorkflowAudit.Lexeme
