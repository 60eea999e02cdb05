import Mathlib
import WorkflowAudit.Expr.Parser
import WorkflowAudit.Proofs.Expr.Word
import WorkflowAudit.Proofs.Number.Nearest

/-!
The doubles that numerals denote: the one nearest to what the digits write, by the places that they stand
at. Main statements: a numeral denotes the value that it is read with, provided that it is not too large,
and no other one; every double is denoted by a numeral.
-/

namespace WorkflowAudit.Lexeme

open Binary64 (Canonical IsNearest magnitude)

/-- The numeral denotes the double: the one nearest to what its digits write. Hexadecimal digits denote a
    double only below `2 ^ 63`. -/
inductive Denotes : List Char → Binary64 → Prop
  | hex {ds : List Char} {x : Binary64} : IsDigits isHexadecimal ds → placeValue 16 ds < 2 ^ 63 →
      IsNearest (placeValue 16 ds) false x → Denotes ('0' :: 'x' :: ds) x
  | decimal {negative : Bool} {ds fraction fs exponent : List Char} {power : Int} {x : Binary64} :
      IsDigits Char.isDigit ds → IsFraction fraction fs → IsExponent exponent power →
      IsNearest (placeValue 10 (ds ++ fs) * 10 ^ (power - fs.length)) negative x →
      Denotes ((if negative then ['-'] else []) ++ (ds ++ (fraction ++ exponent))) x

theorem Denotes.isNumeral {cs : List Char} {x : Binary64} (h : Denotes cs x) : IsNumeral cs := by
  cases h with
  | hex hds _ _ => exact .hex hds
  | @decimal negative _ _ _ _ _ _ hds hf hx _ =>
    cases negative
    · exact .decimal (.inl rfl) hds hf hx
    · exact .decimal (.inr rfl) hds hf hx

/-! ### The value that a numeral is read with -/

section Decimal

variable {ds f fs x : List Char} {k : Int} (hds : IsDigits Char.isDigit ds) (hf : IsFraction f fs)
  (hx : IsExponent x k)

include hf in
theorem IsFraction.isDigit : ∀ c ∈ fs, c.isDigit := by
  cases hf with
  | none => exact fun c hc => absurd hc List.not_mem_nil
  | point hds => exact hds.2

include hf hx in
theorem takeWhile_digits (hall : ∀ c ∈ ds, c.isDigit) :
    (ds ++ (f ++ x)).takeWhile Char.isDigit = ds := by
  rw [List.takeWhile_append_of_pos hall]
  by_cases hne : f ++ x = []
  · rw [hne, List.takeWhile_nil, List.append_nil]
  · have hnil := digitsWidth_tail hf hx hne []
    rw [List.append_nil, digitsWidth, List.length_eq_zero_iff] at hnil
    rw [hnil, List.append_nil]

include hf hx in
theorem fractionDigits_append : fractionDigits (f ++ x) = fs := by
  cases hf with
  | none =>
    cases hx with
    | none => rfl
    | power he _ _ => rcases he with rfl | rfl <;> rfl
  | point hds => exact takeWhile_digits .none hx hds.2

include hf in
theorem drop_fraction : (if fs.isEmpty then f ++ x else (f ++ x).drop (fs.length + 1)) = x := by
  cases hf with
  | none => rfl
  | point hds =>
    rw [List.isEmpty_eq_false_iff.2 hds.1, if_neg Bool.false_ne_true]
    exact List.drop_left

include hx in
theorem exponentValue_eq : exponentValue x = k := by
  cases hx with
  | none => rfl
  | @power e sign ds _ hsign hds =>
    have hvalue := decimalValue_eq hds.2
    rcases hsign with rfl | rfl | rfl
    · -- without a sign the first digit is no sign either
      obtain ⟨d, ds, rfl⟩ := List.exists_cons_of_ne_nil hds.1
      have hd := hds.2 d (List.mem_cons_self ..)
      rw [List.nil_append, if_neg (List.cons_ne_nil _ _).symm, ← hvalue]
      unfold exponentValue
      split
      · rename_i heq
        cases heq
        cases hd
      · rename_i heq
        cases heq
        cases hd
      · rename_i heq
        cases heq
        rfl
      · rename_i heq
        cases heq
    · rw [if_neg (by decide), ← hvalue]
      rfl
    · rw [if_pos rfl, ← hvalue]
      rfl

include hds

theorem head?_digits (rest : List Char) : (ds ++ rest).head? ≠ some '-' := by
  obtain ⟨d, ds, rfl⟩ := List.exists_cons_of_ne_nil hds.1
  intro h
  cases h
  exact absurd (hds.2 '-' (List.mem_cons_self ..)) (by decide)

include hf hx

/-- No decimal numeral begins as a hexadecimal one. -/
theorem decimal_ne_hex (negative : Bool) (es : List Char) :
    (if negative then ['-'] else []) ++ (ds ++ (f ++ x)) ≠ '0' :: 'x' :: es := by
  intro h
  cases negative with
  | true => exact absurd (List.cons.inj h).1 (by decide)
  | false =>
    have htake := takeWhile_digits hf hx hds.2
    obtain ⟨d, ds, rfl⟩ := List.exists_cons_of_ne_nil hds.1
    have htext : d :: ds ++ (f ++ x) = '0' :: 'x' :: es := h
    rw [htext] at htake
    obtain ⟨rfl, rfl⟩ : '0' = d ∧ [] = ds := List.cons.inj htake
    have htail : f ++ x = 'x' :: es := (List.cons.inj htext).2
    cases hf with
    | point _ => exact absurd (List.cons.inj htail).1 (by decide)
    | none =>
      cases hx with
      | none => cases htail
      | power he _ _ =>
        obtain ⟨rfl, -⟩ := List.cons.inj htail
        exact absurd he (by decide)

/-- A decimal numeral is read by its sign, its digits and its power of ten. -/
theorem numberValue_decimal (negative : Bool) :
    numberValue ((if negative then ['-'] else []) ++ (ds ++ (f ++ x))) =
      .ofDecimal negative (placeValue 10 (ds ++ fs)) (k - fs.length) := by
  have hall : ∀ c ∈ ds ++ fs, c.isDigit := by
    intro c hc
    rcases List.mem_append.1 hc with hc | hc
    · exact hds.2 c hc
    · exact hf.isDigit c hc
  unfold numberValue
  split
  · rename_i h
    exact absurd h (decimal_ne_hex hds hf hx negative _)
  · cases negative with
    | true =>
      simp only [if_true, List.singleton_append, List.head?_cons, decide_true, List.drop_one,
        List.tail_cons, takeWhile_digits hf hx hds.2, List.drop_left, fractionDigits_append hf hx,
        drop_fraction hf, exponentValue_eq hx, decimalValue_eq hall]
    | false =>
      simp only [Bool.false_eq_true, if_false, List.nil_append, head?_digits hds, decide_false,
        takeWhile_digits hf hx hds.2, List.drop_left, fractionDigits_append hf hx, drop_fraction hf,
        exponentValue_eq hx, decimalValue_eq hall]

end Decimal

theorem tooLarge_hex {ds : List Char} (h : ∀ c ∈ ds, isHexadecimal c) :
    Expr.tooLarge ('0' :: 'x' :: ds) = false ↔ placeValue 16 ds < 2 ^ 63 := by
  rw [Expr.tooLarge, hexValue_eq h, decide_eq_false_iff_not, not_le]
  rfl

/-- A numeral that is not too large denotes the value that it is read with. -/
theorem denotes_numberValue {cs : List Char} (h : IsNumeral cs) (hsmall : Expr.tooLarge cs = false) :
    Denotes cs (numberValue cs) := by
  cases h with
  | @hex ds hds =>
    rw [numberValue, hexValue_eq hds.2]
    exact .hex hds ((tooLarge_hex hds.2).1 hsmall) (Binary64.isNearest_ofNat _)
  | @decimal sign ds f fs x k hsign hds hf hx =>
    obtain ⟨negative, rfl⟩ : ∃ negative : Bool, sign = if negative then ['-'] else [] := by
      rcases hsign with rfl | rfl
      · exact ⟨false, rfl⟩
      · exact ⟨true, rfl⟩
    rw [numberValue_decimal hds hf hx negative]
    exact .decimal hds hf hx (Binary64.isNearest_ofDecimal ..)

theorem Denotes.tooLarge {cs : List Char} {x : Binary64} (h : Denotes cs x) :
    Expr.tooLarge cs = false := by
  cases h with
  | hex hds hsmall _ => exact (tooLarge_hex hds.2).2 hsmall
  | @decimal negative _ _ _ _ _ _ hds hf hx _ =>
    unfold Expr.tooLarge
    split
    · rename_i heq
      exact absurd heq (decimal_ne_hex hds hf hx negative _)
    · rfl

/-- A numeral denotes no value but the one that it is read with. -/
theorem Denotes.eq_numberValue {cs : List Char} {x : Binary64} (h : Denotes cs x) :
    numberValue cs = x := by
  cases h with
  | hex hds _ hnearest =>
    rw [numberValue, hexValue_eq hds.2]
    exact (Binary64.isNearest_ofNat _).unique hnearest
  | decimal hds hf hx hnearest =>
    rw [numberValue_decimal hds hf hx]
    exact (Binary64.isNearest_ofDecimal ..).unique hnearest

/-! ### Every double is denoted -/

/-- The numeral of `n · 10 ^ -k`. -/
def decimalNumeral (negative : Bool) (n k : Nat) : List Char :=
  (if negative then ['-'] else []) ++ (Nat.toDigits 10 n ++ ([] ++ 'e' :: (['-'] ++ Nat.toDigits 10 k)))

theorem isDigits_toDigits (n : Nat) : IsDigits Char.isDigit (Nat.toDigits 10 n) :=
  ⟨Nat.toDigits_ne_nil, fun _ hc => Nat.isDigit_of_mem_toDigits (by decide) (by decide) hc⟩

theorem placeValue_toDigits (n : Nat) : placeValue 10 (Nat.toDigits 10 n) = n :=
  (decimalValue_eq (isDigits_toDigits n).2).symm.trans (Nat.ofDigitChars_toDigits (by decide) (by decide))

theorem denotes_decimalNumeral {negative : Bool} {n k : Nat} {x : Binary64}
    (h : IsNearest (n * 10 ^ (-(k : Int))) negative x) : Denotes (decimalNumeral negative n k) x := by
  refine .decimal (isDigits_toDigits n) .none
    (.power (.inl rfl) (.inr (.inr rfl)) (isDigits_toDigits k)) ?_
  rwa [if_pos rfl, List.append_nil, placeValue_toDigits, placeValue_toDigits, List.length_nil,
    Nat.cast_zero, sub_zero]

/-- Every double is denoted by a numeral. -/
theorem exists_denotes : ∀ {x : Binary64}, Canonical x → ∃ cs, Denotes cs x
  | .infinite s, _ => by
    refine ⟨decimalNumeral s (2 ^ 1024) 0, denotes_decimalNumeral (.infinite ?_)⟩
    calc ((2 : ℚ) ^ 54 - 1) * 2 ^ 970 ≤ 2 ^ 54 * 2 ^ 970 :=
          mul_le_mul_of_nonneg_right (by norm_num) (by positivity)
      _ = 2 ^ 1024 := (pow_add ..).symm
      _ = (2 ^ 1024 : Nat) * 10 ^ (-((0 : Nat) : Int)) := by
          rw [Nat.cast_zero, neg_zero, zpow_zero, mul_one, Nat.cast_pow, Nat.cast_ofNat]
  | .finite s m e, hc => by
    obtain ⟨k, rfl | rfl⟩ := Int.eq_nat_or_neg e
    · refine ⟨decimalNumeral s (m * 2 ^ k) 0, denotes_decimalNumeral (hc.isNearest ?_)⟩
      rw [magnitude, Nat.cast_zero, neg_zero, zpow_zero, mul_one, zpow_natCast]
      push_cast
      rfl
    · refine ⟨decimalNumeral s (m * 5 ^ k) k, denotes_decimalNumeral (hc.isNearest ?_)⟩
      have hten : (10 : ℚ) ^ k = 5 ^ k * 2 ^ k := by rw [← mul_pow]; norm_num
      rw [magnitude, zpow_neg, zpow_neg, zpow_natCast, zpow_natCast, hten]
      push_cast
      field_simp

end WorkflowAudit.Lexeme
