import Mathlib
import WorkflowAudit.Number.Binary64

/-!
The double nearest to a number. A double is nearest if no other finite one is nearer and, of two that are as
near, if it has the even mantissa; from half a step above the greatest finite double on, it is infinite.
Main statements: one double at most is nearest, and the double that a quotient or decimal digits are
rounded to is.
-/

namespace WorkflowAudit.Binary64

/-- A double as the format has it: the mantissa has 53 bits, and fewer only at the least exponent. -/
def Canonical : Binary64 → Prop
  | .finite _ m e => m < 2 ^ 53 ∧ -1074 ≤ e ∧ e ≤ 971 ∧ (e = -1074 ∨ 2 ^ 52 ≤ m)
  | .infinite _ => True

instance : DecidablePred Canonical
  | .finite .. => inferInstanceAs (Decidable (_ ∧ _))
  | .infinite _ => .isTrue trivial

/-- The size of a finite double. -/
def magnitude (m : Nat) (e : Int) : ℚ :=
  m * 2 ^ e

/-- The double with the sign that is nearest to the number, and of two that are as near the one with the
    even mantissa. -/
inductive IsNearest (q : ℚ) (negative : Bool) : Binary64 → Prop
  | finite {m : Nat} {e : Int} : Canonical (.finite negative m e) → q < (2 ^ 54 - 1) * 2 ^ 970 →
      (∀ m' e', Canonical (.finite negative m' e') → |magnitude m e - q| ≤ |magnitude m' e' - q|) →
      (∀ m' e', Canonical (.finite negative m' e') → |magnitude m e - q| = |magnitude m' e' - q| →
        magnitude m' e' ≠ magnitude m e → 2 ∣ m) →
      IsNearest q negative (.finite negative m e)
  | infinite : (2 ^ 54 - 1) * 2 ^ 970 ≤ q → IsNearest q negative (.infinite negative)

/-! ### Finite doubles -/

section Finite

variable {m m' : Nat} {e e' : Int} {s : Bool}

theorem two_zpow_pos (e : Int) : (0 : ℚ) < 2 ^ e :=
  zpow_pos two_pos e

/-- With a greater exponent, a size is a whole multiple of the smaller step. -/
theorem magnitude_of_le (h : e ≤ e') (m : Nat) :
    magnitude m e' = magnitude (m * 2 ^ (e' - e).toNat) e := by
  have hsum : (2 : ℚ) ^ e' = 2 ^ (e' - e).toNat * 2 ^ e := by
    rw [← zpow_natCast, ← zpow_add₀ two_ne_zero, Int.toNat_of_nonneg (by omega), sub_add_cancel]
  rw [magnitude, magnitude, hsum]
  push_cast
  exact (mul_assoc ..).symm

/-- A smaller exponent keeps a double below every one that has a full mantissa. -/
theorem magnitude_lt_of_lt (hm : m < 2 ^ 53) (h : e < e') : magnitude m e < magnitude (2 ^ 52) e' := by
  have hstep : (2 : ℚ) ^ (e + 1) ≤ 2 ^ e' := zpow_le_zpow_right₀ one_le_two (by omega)
  have hm' : (m : ℚ) < 2 ^ 53 := by exact_mod_cast hm
  calc magnitude m e < 2 ^ 53 * 2 ^ e := mul_lt_mul_of_pos_right hm' (two_zpow_pos e)
    _ = 2 ^ 52 * 2 ^ (e + 1) := by rw [zpow_add_one₀ two_ne_zero]; ring
    _ ≤ 2 ^ 52 * 2 ^ e' := mul_le_mul_of_nonneg_left hstep (by norm_num)
    _ = magnitude (2 ^ 52) e' := by rw [magnitude]; push_cast; rfl

theorem magnitude_le_iff : magnitude m e ≤ magnitude m' e ↔ m ≤ m' := by
  rw [magnitude, magnitude, mul_le_mul_iff_left₀ (two_zpow_pos e), Nat.cast_le]

theorem magnitude_lt_iff : magnitude m e < magnitude m' e ↔ m < m' := by
  rw [magnitude, magnitude, mul_lt_mul_iff_left₀ (two_zpow_pos e), Nat.cast_lt]

/-- A double with a smaller exponent than another is smaller. -/
theorem Canonical.magnitude_lt (h : Canonical (.finite s m e)) (h' : Canonical (.finite s m' e'))
    (hlt : e < e') : magnitude m e < magnitude m' e' := by
  have hfull : 2 ^ 52 ≤ m' := h'.2.2.2.resolve_left (by have := h.2.1; omega)
  exact (magnitude_lt_of_lt h.1 hlt).trans_le (magnitude_le_iff.2 hfull)

theorem Canonical.inj (h : Canonical (.finite s m e)) (h' : Canonical (.finite s m' e'))
    (heq : magnitude m e = magnitude m' e') : m = m' ∧ e = e' := by
  rcases lt_trichotomy e e' with hlt | rfl | hlt
  · exact absurd heq (h.magnitude_lt h' hlt).ne
  · exact ⟨le_antisymm (magnitude_le_iff.1 heq.le) (magnitude_le_iff.1 heq.ge), rfl⟩
  · exact absurd heq (h'.magnitude_lt h hlt).ne'

/-- An even mantissa leaves room for the next double at the same exponent. -/
theorem Canonical.succ (h : Canonical (.finite s m e)) (heven : 2 ∣ m) :
    Canonical (.finite s (m + 1) e) := by
  obtain ⟨hm, he, he', hfull⟩ := h
  refine ⟨by omega, he, he', hfull.imp_right fun hfull => by omega⟩

theorem Canonical.succ_le (h : Canonical (.finite s m e)) (h' : Canonical (.finite s m' e'))
    (hlt : magnitude m e < magnitude m' e') : magnitude (m + 1) e ≤ magnitude m' e' := by
  have hle : e ≤ e' := by
    by_contra hgt
    exact absurd (h'.magnitude_lt h (by omega)) hlt.le.not_gt
  rw [magnitude_of_le hle] at hlt ⊢
  rw [magnitude_lt_iff] at hlt
  exact magnitude_le_iff.2 hlt

end Finite

/-- Half a step above the greatest finite double. -/
theorem threshold_eq : ((2 : ℚ) ^ 54 - 1) * 2 ^ 970 = (2 ^ 53 - 1 / 2) * 2 ^ (971 : Int) := by
  rw [show (971 : Int) = (970 : Nat) + 1 from rfl, zpow_add_one₀ two_ne_zero, zpow_natCast]
  generalize (2 : ℚ) ^ 970 = step
  ring

/-! ### Uniqueness -/

/-- Between two doubles with even mantissas there is another one. -/
theorem exists_between {s : Bool} {m m' : Nat} {e e' : Int} (h : Canonical (.finite s m e))
    (h' : Canonical (.finite s m' e')) (heven : 2 ∣ m) (heven' : 2 ∣ m')
    (hlt : magnitude m e < magnitude m' e') : Canonical (.finite s (m + 1) e) ∧
      magnitude m e < magnitude (m + 1) e ∧ magnitude (m + 1) e < magnitude m' e' := by
  have hnext := h.succ heven
  refine ⟨hnext, magnitude_lt_iff.2 (Nat.lt_succ_self m), (h.succ_le h' hlt).lt_of_ne fun heq => ?_⟩
  obtain ⟨rfl, -⟩ := hnext.inj h' heq
  omega

/-- Two doubles with even mantissas are not both nearest. -/
theorem not_both_nearest {q : ℚ} {s : Bool} {m m' : Nat} {e e' : Int} (h : Canonical (.finite s m e))
    (h' : Canonical (.finite s m' e')) (heven : 2 ∣ m) (heven' : 2 ∣ m')
    (hnear : ∀ k f, Canonical (.finite s k f) → |magnitude m e - q| ≤ |magnitude k f - q|)
    (hsame : |magnitude m e - q| = |magnitude m' e' - q|) : ¬ magnitude m e < magnitude m' e' := by
  intro hlt
  obtain ⟨hbetween, hlow, hhigh⟩ := exists_between h h' heven heven' hlt
  have hle := hnear _ _ hbetween
  rw [hsame] at hle
  -- the two are as far from the number, so that it is in the middle and what is between is nearer
  rcases abs_cases (magnitude m e - q) with ⟨h₁, _⟩ | ⟨h₁, _⟩ <;>
    rcases abs_cases (magnitude m' e' - q) with ⟨h₂, _⟩ | ⟨h₂, _⟩ <;>
    rcases abs_cases (magnitude (m + 1) e - q) with ⟨h₃, _⟩ | ⟨h₃, _⟩ <;> linarith

theorem IsNearest.unique {q : ℚ} {s : Bool} {x y : Binary64} (hx : IsNearest q s x)
    (hy : IsNearest q s y) : x = y := by
  cases hx with
  | infinite hlarge =>
    cases hy with
    | infinite _ => rfl
    | finite _ hsmall _ _ => exact absurd hsmall hlarge.not_gt
  | @finite m e hc hsmall hnear htie =>
    cases hy with
    | infinite hlarge => exact absurd hsmall hlarge.not_gt
    | @finite m' e' hc' _ hnear' htie' =>
      have hsame : |magnitude m e - q| = |magnitude m' e' - q| :=
        le_antisymm (hnear _ _ hc') (hnear' _ _ hc)
      by_cases heq : magnitude m e = magnitude m' e'
      · obtain ⟨rfl, rfl⟩ := hc.inj hc' heq
        rfl
      · have heven := htie _ _ hc' hsame (Ne.symm heq)
        have heven' := htie' _ _ hc hsame.symm heq
        rcases lt_or_gt_of_ne heq with hlt | hgt
        · exact absurd hlt (not_both_nearest hc hc' heven heven' hnear hsame)
        · exact absurd hgt (not_both_nearest hc' hc heven' heven hnear' hsame.symm)

/-- A double is nearest to its own size. -/
theorem Canonical.isNearest {s : Bool} {m : Nat} {e : Int} (h : Canonical (.finite s m e)) {q : ℚ}
    (hq : magnitude m e = q) : IsNearest q s (.finite s m e) := by
  subst hq
  refine .finite h ?_ (fun m' e' _ => by simp) fun m' e' _ hsame hne => ?_
  · have hm : (m : ℚ) ≤ 2 ^ 53 - 1 := by
      have := h.1
      rw [le_sub_iff_add_le]
      exact_mod_cast this
    have hstep : (2 : ℚ) ^ e ≤ 2 ^ (971 : Int) := zpow_le_zpow_right₀ one_le_two h.2.2.1
    calc magnitude m e ≤ (2 ^ 53 - 1) * 2 ^ (971 : Int) :=
          mul_le_mul hm hstep (two_zpow_pos e).le (by norm_num)
      _ < (2 ^ 53 - 1 / 2) * 2 ^ (971 : Int) :=
          mul_lt_mul_of_pos_right (by norm_num) (two_zpow_pos 971)
      _ = (2 ^ 54 - 1) * 2 ^ 970 := threshold_eq.symm
  · rw [sub_self, abs_zero, eq_comm, abs_eq_zero, sub_eq_zero] at hsame
    exact absurd hsame hne

/-! ### Rounding -/

/-- The natural number is nearest to the number, and even if another one is as near. -/
def RoundsTo (y : ℚ) (r : Nat) : Prop :=
  |(r : ℚ) - y| ≤ 1 / 2 ∧ (|(r : ℚ) - y| = 1 / 2 → 2 ∣ r)

theorem roundsTo_roundQuotient (num : Nat) {den : Nat} (hden : 0 < den) :
    RoundsTo ((num : ℚ) / den) (roundQuotient num den) := by
  have hd : (0 : ℚ) < den := by exact_mod_cast hden
  have hdiv : (num : ℚ) / den = (num / den : Nat) + ((num % den : Nat) : ℚ) / den := by
    rw [div_eq_iff hd.ne', add_mul, div_mul_cancel₀ _ hd.ne', mul_comm]
    exact_mod_cast (Nat.div_add_mod num den).symm
  rw [hdiv, RoundsTo, roundQuotient]
  -- what is over lies below or above one half, or is one half
  have hpos : 0 ≤ ((num % den : Nat) : ℚ) / den := div_nonneg (Nat.cast_nonneg _) hd.le
  have hone : ((num % den : Nat) : ℚ) / den < 1 :=
    (div_lt_one hd).2 (by exact_mod_cast Nat.mod_lt num hden)
  have hbelow : 2 * (num % den) < den ↔ ((num % den : Nat) : ℚ) / den < 1 / 2 := by
    rw [div_lt_iff₀ hd, ← Nat.cast_lt (α := ℚ)]
    push_cast
    constructor <;> intro h <;> linarith
  have habove : den < 2 * (num % den) ↔ 1 / 2 < ((num % den : Nat) : ℚ) / den := by
    rw [lt_div_iff₀ hd, ← Nat.cast_lt (α := ℚ)]
    push_cast
    constructor <;> intro h <;> linarith
  generalize ((num % den : Nat) : ℚ) / den = excess at hpos hone hbelow habove
  simp only [hbelow, habove]
  have hdown : |((num / den : Nat) : ℚ) - ((num / den : Nat) + excess)| = excess := by
    rw [sub_add_cancel_left, abs_neg, abs_of_nonneg hpos]
  have hup : |((num / den + 1 : Nat) : ℚ) - ((num / den : Nat) + excess)| = 1 - excess := by
    push_cast
    rw [add_sub_add_left_eq_sub, abs_of_pos (by linarith)]
  split_ifs with hlow hhigh heven
  · rw [hdown]
    exact ⟨hlow.le, fun h => absurd h hlow.ne⟩
  · rw [hup]
    exact ⟨by linarith, fun h => by linarith⟩
  · rw [hdown]
    exact ⟨by linarith, fun _ => Nat.dvd_of_mod_eq_zero heven⟩
  · rw [hup]
    exact ⟨by linarith, fun _ => by omega⟩

/-- No whole number is nearer. -/
theorem RoundsTo.le {y : ℚ} {r : Nat} (h : RoundsTo y r) (k : Nat) :
    |(r : ℚ) - y| ≤ |(k : ℚ) - y| ∧ (|(r : ℚ) - y| = |(k : ℚ) - y| → k ≠ r → 2 ∣ r) := by
  obtain ⟨hnear, htie⟩ := h
  by_cases heq : k = r
  · exact ⟨by rw [heq], fun _ hne => absurd heq hne⟩
  · -- another whole number is one away at least, and so half a step away from what is rounded
    have hapart : (1 : ℚ) ≤ |(k : ℚ) - r| := by
      have : (1 : Int) ≤ |(k : Int) - r| := Int.one_le_abs (by omega)
      exact_mod_cast this
    have htriangle : |(k : ℚ) - r| ≤ |(k : ℚ) - y| + |(r : ℚ) - y| := by
      rw [abs_sub_comm (r : ℚ) y]
      exact abs_sub_le _ _ _
    exact ⟨by linarith, fun hsame _ => htie (by linarith)⟩

/-! ### The exponent of a quotient -/

theorem scale_pos (num : Nat) {den : Nat} (hden : 0 < den) (x : Int) : 0 < (scale num den x).2 := by
  unfold scale
  split
  · exact Nat.mul_pos hden (Nat.two_pow_pos _)
  · exact hden

/-- Scaling divides by a power of two. -/
theorem scale_eq (num : Nat) {den : Nat} (hden : 0 < den) (x : Int) :
    ((scale num den x).1 : ℚ) / (scale num den x).2 = num / den / 2 ^ x := by
  have hd : (den : ℚ) ≠ 0 := by exact_mod_cast hden.ne'
  unfold scale
  simp only [Nat.pow_eq]
  split
  · rename_i hx
    have hpow : (2 : ℚ) ^ x = 2 ^ x.toNat := by rw [← zpow_natCast, Int.toNat_of_nonneg hx]
    push_cast
    rw [hpow, div_div]
  · rename_i hx
    have hpow : (2 : ℚ) ^ x = (2 ^ (-x).toNat)⁻¹ := by
      rw [← zpow_natCast, Int.toNat_of_nonneg (by omega), zpow_neg, inv_inv]
    push_cast
    rw [hpow, div_inv_eq_mul, mul_div_right_comm]

theorem two_zpow_log2_le {n : Nat} (hn : n ≠ 0) : (2 : ℚ) ^ (Nat.log2 n : Int) ≤ n := by
  rw [zpow_natCast]
  exact_mod_cast Nat.log2_self_le hn

theorem lt_two_zpow_log2 (n : Nat) : (n : ℚ) < 2 ^ ((Nat.log2 n : Int) + 1) := by
  rw [zpow_add_one₀ two_ne_zero, zpow_natCast, ← pow_succ]
  exact_mod_cast Nat.lt_log2_self

/-- The numbers of bits settle the exponent up to one. -/
theorem quotient_bounds {num den : Nat} (hnum : num ≠ 0) (hden : den ≠ 0) :
    let low : Int := (Nat.log2 num : Int) - Nat.log2 den - 53
    2 ^ 52 < (num : ℚ) / den / 2 ^ low ∧ (num : ℚ) / den / 2 ^ low < 2 ^ 54 := by
  intro low
  have hd : (0 : ℚ) < den := by exact_mod_cast Nat.pos_of_ne_zero hden
  have hlow := two_zpow_pos low
  rw [div_div, lt_div_iff₀ (by positivity), div_lt_iff₀ (by positivity)]
  constructor
  · calc (2 : ℚ) ^ 52 * (den * 2 ^ low)
        < 2 ^ 52 * (2 ^ ((Nat.log2 den : Int) + 1) * 2 ^ low) := by
          gcongr
          exact lt_two_zpow_log2 den
      _ = 2 ^ (Nat.log2 num : Int) := by
          rw [← zpow_natCast, ← zpow_add₀ two_ne_zero, ← zpow_add₀ two_ne_zero]
          congr 1
          simp only [low]
          push_cast
          ring
      _ ≤ num := two_zpow_log2_le hnum
  · calc (num : ℚ) < 2 ^ ((Nat.log2 num : Int) + 1) := lt_two_zpow_log2 num
      _ = 2 ^ 54 * (2 ^ (Nat.log2 den : Int) * 2 ^ low) := by
          rw [← zpow_natCast (2 : ℚ) 54, ← zpow_add₀ two_ne_zero, ← zpow_add₀ two_ne_zero]
          congr 1
          simp only [low]
          push_cast
          ring
      _ ≤ 2 ^ 54 * (den * 2 ^ low) := by
          gcongr
          exact two_zpow_log2_le hden

/-- At its exponent a quotient has at most 53 bits before the point, and fewer only at the least one. -/
theorem exponentFor_bounds {num den : Nat} (hnum : num ≠ 0) (hden : 0 < den) :
    -1074 ≤ exponentFor num den ∧ (num : ℚ) / den < 2 ^ 53 * 2 ^ exponentFor num den ∧
      (exponentFor num den = -1074 ∨ 2 ^ 52 * 2 ^ exponentFor num den ≤ (num : ℚ) / den) := by
  obtain ⟨hlow, hhigh⟩ := quotient_bounds hnum hden.ne'
  rw [exponentFor]
  simp only [Nat.pow_eq, leastExponent]
  generalize (Nat.log2 num : Int) - Nat.log2 den - 53 = low at hlow hhigh
  have hd : (0 : ℚ) < (scale num den low).2 := by exact_mod_cast scale_pos num hden low
  have hwhole : (scale num den low).1 / (scale num den low).2 < 2 ^ 53 ↔
      (num : ℚ) / den / 2 ^ low < 2 ^ 53 := by
    rw [Nat.div_lt_iff_lt_mul (scale_pos num hden low), ← scale_eq num hden low, div_lt_iff₀ hd]
    exact_mod_cast Iff.rfl
  -- the exponent before it is kept from falling below the least one
  obtain ⟨top, htop, hbelow, habove⟩ : ∃ top : Int,
      (if (scale num den low).1 / (scale num den low).2 < 2 ^ 53 then low else low + 1) = top ∧
      (num : ℚ) / den < 2 ^ 53 * 2 ^ top ∧ 2 ^ 52 * 2 ^ top ≤ (num : ℚ) / den := by
    rw [lt_div_iff₀ (two_zpow_pos low)] at hlow
    rw [div_lt_iff₀ (two_zpow_pos low)] at hhigh
    rw [div_lt_iff₀ (two_zpow_pos low)] at hwhole
    by_cases hfits : (num : ℚ) / den < 2 ^ 53 * 2 ^ low
    · exact ⟨low, if_pos (hwhole.2 hfits), hfits, hlow.le⟩
    · refine ⟨low + 1, if_neg (mt hwhole.1 hfits), ?_, ?_⟩ <;> rw [zpow_add_one₀ two_ne_zero] <;> linarith
  rw [htop]
  refine ⟨le_max_right _ _, hbelow.trans_le ?_, ?_⟩
  · exact mul_le_mul_of_nonneg_left (zpow_le_zpow_right₀ one_le_two (le_max_left _ _)) (by norm_num)
  · rcases le_total top (-1074) with hle | hge
    · exact .inl (max_eq_right hle)
    · rw [max_eq_left hge]
      exact .inr habove

/-! ### Rounding a quotient -/

section Quotient

variable {q : ℚ} {e : Int} {r : Nat}

/-- What is rounded at the exponent of a number is as near as any double. -/
theorem RoundsTo.nearest (h : RoundsTo (q / 2 ^ e) r) (he : e = -1074 ∨ 2 ^ 52 * 2 ^ e ≤ q) {s : Bool}
    {m' : Nat} {e' : Int} (hc : Canonical (.finite s m' e')) :
    |magnitude r e - q| ≤ |magnitude m' e' - q| ∧
      (|magnitude r e - q| = |magnitude m' e' - q| → magnitude m' e' ≠ magnitude r e → 2 ∣ r) := by
  have hstep := two_zpow_pos e
  have hscaled (k : Nat) : |magnitude k e - q| = |(k : ℚ) - q / 2 ^ e| * 2 ^ e := by
    rw [← abs_of_pos hstep, ← abs_mul, abs_of_pos hstep, sub_mul, div_mul_cancel₀ _ hstep.ne', magnitude]
  rcases le_or_gt e e' with hle | hlt
  · -- a double with a greater exponent is a whole number of steps
    rw [magnitude_of_le hle, hscaled, hscaled]
    obtain ⟨hnear, htie⟩ := h.le (m' * 2 ^ (e' - e).toNat)
    refine ⟨mul_le_mul_of_nonneg_right hnear hstep.le, fun hsame hne => htie ?_ ?_⟩
    · exact mul_right_cancel₀ hstep.ne' hsame
    · rintro heq
      exact hne (by rw [heq])
  · -- a double with a smaller exponent is below all that have a full mantissa
    have hfull := he.resolve_left (by have := hc.2.1; omega)
    have hbelow := magnitude_lt_of_lt hc.1 hlt
    have hpow : magnitude (2 ^ 52) e = 2 ^ 52 * 2 ^ e := by
      rw [magnitude]
      push_cast
      rfl
    have hnear := mul_le_mul_of_nonneg_right (h.le (2 ^ 52)).1 hstep.le
    rw [← hscaled, ← hscaled, abs_of_nonpos (a := magnitude (2 ^ 52) e - q) (by linarith)] at hnear
    have hfar : |magnitude r e - q| < |magnitude m' e' - q| := by
      rw [abs_of_neg (a := magnitude m' e' - q) (by linarith)]
      linarith
    exact ⟨hfar.le, fun hsame => absurd hsame hfar.ne⟩

theorem le_threshold (he : 971 ≤ e) (hq : (2 ^ 53 - 1 / 2) * 2 ^ e ≤ q) :
    (2 ^ 54 - 1) * 2 ^ 970 ≤ q := by
  have hstep : (2 : ℚ) ^ (971 : Int) ≤ 2 ^ e := zpow_le_zpow_right₀ one_le_two he
  rw [threshold_eq]
  exact (mul_le_mul_of_nonneg_left hstep (by norm_num)).trans hq

theorem lt_threshold (he : e ≤ 971) (hq : q < (2 ^ 53 - 1 / 2) * 2 ^ e) :
    q < (2 ^ 54 - 1) * 2 ^ 970 := by
  have hstep : (2 : ℚ) ^ e ≤ 2 ^ (971 : Int) := zpow_le_zpow_right₀ one_le_two he
  rw [threshold_eq]
  exact hq.trans_le (mul_le_mul_of_nonneg_left hstep (by norm_num))

variable (hround : RoundsTo (q / 2 ^ e) r)

include hround

theorem RoundsTo.bounds : q / 2 ^ e ≤ r + 1 / 2 ∧ (r : ℚ) ≤ q / 2 ^ e + 1 / 2 := by
  obtain ⟨hlow, hhigh⟩ := abs_le.1 hround.1
  exact ⟨by linarith, by linarith⟩

theorem RoundsTo.le_of_lt (hq : q < 2 ^ 53 * 2 ^ e) : r ≤ 2 ^ 53 := by
  rw [← div_lt_iff₀ (two_zpow_pos e)] at hq
  have hlt : (r : ℚ) < (2 ^ 53 + 1 : Nat) := by
    push_cast
    linarith [hround.bounds.2]
  exact Nat.lt_succ_iff.1 (by exact_mod_cast hlt)

theorem RoundsTo.le_of_le (hq : 2 ^ 52 * 2 ^ e ≤ q) : 2 ^ 52 ≤ r := by
  rw [← le_div_iff₀ (two_zpow_pos e)] at hq
  have hlt : ((2 ^ 52 : Nat) : ℚ) < (r + 1 : Nat) := by
    push_cast
    linarith [hround.bounds.1]
  exact Nat.lt_succ_iff.1 (by exact_mod_cast hlt)

/-- The mantissa before the next power of two is odd, so that half a step above it is rounded up. -/
theorem RoundsTo.lt_of_lt (hr : r < 2 ^ 53) : q < (2 ^ 53 - 1 / 2) * 2 ^ e := by
  rw [← div_lt_iff₀ (two_zpow_pos e)]
  by_contra hge
  have hlast : (r : ℚ) ≤ 2 ^ 53 - 1 := by
    rw [le_sub_iff_add_le]
    exact_mod_cast hr
  have hmiddle : |(r : ℚ) - q / 2 ^ e| = 1 / 2 := by
    refine le_antisymm hround.1 ?_
    rw [abs_sub_comm, le_abs]
    exact .inl (by linarith)
  have hr' : (r : ℚ) = (2 ^ 53 - 1 : Nat) := by
    push_cast
    linarith [hround.bounds.1]
  have heven := hround.2 hmiddle
  rw [Nat.cast_inj] at hr'
  omega

theorem RoundsTo.le_of_carry (hr : r = 2 ^ 53) : (2 ^ 53 - 1 / 2) * 2 ^ e ≤ q := by
  rw [← le_div_iff₀ (two_zpow_pos e)]
  have hbound := hround.bounds.2
  rw [hr] at hbound
  push_cast at hbound
  linarith

theorem RoundsTo.isNearest (hr : r < 2 ^ 53) (hlow : -1074 ≤ e) (hhigh : e ≤ 971)
    (he : e = -1074 ∨ 2 ^ 52 * 2 ^ e ≤ q) (s : Bool) : IsNearest q s (.finite s r e) :=
  .finite ⟨hr, hlow, hhigh, he.imp_right hround.le_of_le⟩ (lt_threshold hhigh (hround.lt_of_lt hr))
    (fun _ _ hc => (hround.nearest he hc).1) fun _ _ hc => (hround.nearest he hc).2

/-- Rounding up to the next power of two takes the next exponent. -/
theorem RoundsTo.isNearest_carry (hr : r = 2 ^ 53) (hlow : -1074 ≤ e) (hhigh : e + 1 ≤ 971)
    (hq : q < 2 ^ 53 * 2 ^ e) (he : e = -1074 ∨ 2 ^ 52 * 2 ^ e ≤ q) (s : Bool) :
    IsNearest q s (.finite s (2 ^ 52) (e + 1)) := by
  have hsame : magnitude (2 ^ 52) (e + 1) = magnitude r e := by
    rw [magnitude_of_le (show e ≤ e + 1 by omega), hr, show (e + 1 - e).toNat = 1 by omega]
    rfl
  refine .finite ⟨by decide, by omega, hhigh, .inr le_rfl⟩ (lt_threshold hhigh ?_)
    (fun m' e' hc => ?_) fun _ _ _ _ _ => by decide
  · rw [zpow_add_one₀ two_ne_zero]
    linarith [two_zpow_pos e]
  · rw [hsame]
    exact (hround.nearest he hc).1

end Quotient

/-- A quotient is rounded to the double nearest to it. -/
theorem isNearest_ofRatio (negative : Bool) (num : Nat) {den : Nat} (hden : 0 < den) :
    IsNearest (num / den) negative (ofRatio negative num den) := by
  by_cases hnum : num = 0
  · have hzero : Canonical (.finite negative 0 (-1074)) := by cases negative <;> decide
    rw [hnum, Nat.cast_zero, zero_div, ofRatio, if_pos rfl]
    exact hzero.isNearest (by rw [magnitude, Nat.cast_zero, zero_mul])
  · obtain ⟨hlow, hq, he⟩ := exponentFor_bounds hnum hden
    have hround := roundsTo_roundQuotient (scale num den (exponentFor num den)).1
      (scale_pos num hden (exponentFor num den))
    rw [scale_eq num hden] at hround
    rw [ofRatio, if_neg hnum]
    simp only [Nat.pow_eq]
    generalize exponentFor num den = e at hlow hq he hround ⊢
    generalize roundQuotient _ _ = r at hround ⊢
    by_cases hr : r = 2 ^ 53
    · rw [if_pos hr]
      dsimp only
      split
      · rename_i hlarge
        rw [greatestExponent] at hlarge
        exact .infinite (le_threshold (by omega) (hround.le_of_carry hr))
      · rename_i hsmall
        exact hround.isNearest_carry hr hlow (not_lt.1 hsmall) hq he negative
    · rw [if_neg hr]
      dsimp only
      split
      · rename_i hlarge
        rw [greatestExponent] at hlarge
        have hfull := he.resolve_left (by omega)
        have hstep : (2 : ℚ) ^ e = 2 ^ (e - 1) * 2 := by
          rw [← zpow_add_one₀ two_ne_zero, sub_add_cancel]
        refine .infinite (le_threshold (show 971 ≤ e - 1 by omega) ?_)
        rw [hstep] at hfull
        linarith [two_zpow_pos (e - 1)]
      · rename_i hsmall
        have hlt : r < 2 ^ 53 := lt_of_le_of_ne (hround.le_of_lt hq) hr
        exact hround.isNearest hlt hlow (not_lt.1 hsmall) he negative

theorem isNearest_ofNat (n : Nat) : IsNearest n false (ofNat n) := by
  have hnearest := isNearest_ofRatio false n Nat.one_pos
  rwa [Nat.cast_one, div_one] at hnearest

/-! ### Rounding decimal digits -/

theorem lt_pow_digitCount (n : Nat) : n < 10 ^ digitCount n := by
  unfold digitCount
  split
  · rename_i hn
    rw [hn]
    exact Nat.one_pos
  · exact (Nat.length_toDigits_le_iff (by decide) Nat.length_toDigits_pos).1 (Nat.le_refl _)

theorem pow_le_of_digitCount {n : Nat} (hn : n ≠ 0) : 10 ^ (digitCount n - 1) ≤ n := by
  rw [digitCount, if_neg hn]
  rcases Nat.eq_zero_or_pos ((Nat.toDigits 10 n).length - 1) with hone | hmore
  · rw [hone]
    exact Nat.pos_of_ne_zero hn
  · by_contra hlt
    have := (Nat.length_toDigits_le_iff (by decide) hmore).2 (not_le.1 hlt)
    omega

theorem two_pow_lt_ten_pow {n k : Nat} (hk : k ≠ 0) (hn : n ≤ 3 * k) : (2 : ℚ) ^ n < 10 ^ k :=
  calc (2 : ℚ) ^ n ≤ 2 ^ (3 * k) := pow_le_pow_right₀ one_le_two hn
    _ = 8 ^ k := by rw [pow_mul]; norm_num
    _ < 10 ^ k := pow_lt_pow_left₀ (by norm_num) (by norm_num) hk

/-- Less than half of the least double is rounded to zero. -/
theorem isNearest_zero {q : ℚ} (hpos : 0 ≤ q) (hq : q < 2 ^ (-1075 : Int)) (s : Bool) :
    IsNearest q s (zero s) := by
  have hstep := two_zpow_pos (-1074)
  have hhalf : (2 : ℚ) ^ (-1075 : Int) = 1 / 2 * 2 ^ (-1074 : Int) := by
    rw [show (-1075 : Int) = -1074 - 1 by rfl, zpow_sub_one₀ two_ne_zero]
    ring
  rw [hhalf, ← div_lt_iff₀ hstep] at hq
  have hround : RoundsTo (q / 2 ^ (-1074 : Int)) 0 := by
    rw [RoundsTo, Nat.cast_zero, zero_sub, abs_neg, abs_of_nonneg (div_nonneg hpos hstep.le)]
    exact ⟨hq.le, fun _ => dvd_zero 2⟩
  exact hround.isNearest (by decide) le_rfl (by decide) (.inl rfl) s

theorem decimal_lt {n : Nat} {k : Int} (h : (digitCount n : Int) + k < -400) :
    (n : ℚ) * 10 ^ k < 2 ^ (-1075 : Int) := by
  have hn : (n : ℚ) < 10 ^ (digitCount n : Int) := by
    rw [zpow_natCast]
    exact_mod_cast lt_pow_digitCount n
  calc (n : ℚ) * 10 ^ k < 10 ^ (digitCount n : Int) * 10 ^ k :=
        mul_lt_mul_of_pos_right hn (zpow_pos (by norm_num) k)
    _ = 10 ^ ((digitCount n : Int) + k) := (zpow_add₀ (by norm_num) _ _).symm
    _ ≤ 10 ^ (-400 : Int) := zpow_le_zpow_right₀ (by norm_num) h.le
    _ = (10 ^ 400)⁻¹ := by rw [← zpow_natCast, ← zpow_neg]; rfl
    _ < (2 ^ 1075)⁻¹ :=
        inv_strictAnti₀ (pow_pos two_pos _) (two_pow_lt_ten_pow (by decide) (by decide))
    _ = 2 ^ (-1075 : Int) := by rw [← zpow_natCast, ← zpow_neg]; rfl

theorem threshold_le_decimal {n : Nat} {k : Int} (hn : n ≠ 0) (h : 400 < (digitCount n : Int) + k) :
    (2 ^ 54 - 1) * 2 ^ 970 ≤ (n : ℚ) * 10 ^ k := by
  have hpow : (10 : ℚ) ^ ((digitCount n - 1 : Nat) : Int) ≤ n := by
    rw [zpow_natCast]
    exact_mod_cast pow_le_of_digitCount hn
  calc ((2 : ℚ) ^ 54 - 1) * 2 ^ 970 ≤ 2 ^ 54 * 2 ^ 970 :=
        mul_le_mul_of_nonneg_right (by norm_num) (by positivity)
    _ = 2 ^ 1024 := (pow_add ..).symm
    _ ≤ 10 ^ 400 := (two_pow_lt_ten_pow (by decide) (by decide)).le
    _ = 10 ^ (400 : Int) := (zpow_natCast 10 400).symm
    _ ≤ 10 ^ (((digitCount n - 1 : Nat) : Int) + k) := zpow_le_zpow_right₀ (by norm_num) (by omega)
    _ = 10 ^ ((digitCount n - 1 : Nat) : Int) * 10 ^ k := zpow_add₀ (by norm_num) _ _
    _ ≤ n * 10 ^ k := mul_le_mul_of_nonneg_right hpow (by positivity)

/-- Decimal digits with an exponent are rounded to the double nearest to what they write. -/
theorem isNearest_ofDecimal (negative : Bool) (n : Nat) (k : Int) :
    IsNearest (n * 10 ^ k) negative (ofDecimal negative n k) := by
  have hten : (0 : ℚ) < 10 ^ k := zpow_pos (by norm_num) k
  rw [ofDecimal]
  simp only [Bool.or_eq_true, decide_eq_true_eq, Nat.pow_eq]
  split
  · rename_i hsmall
    refine isNearest_zero (by positivity) ?_ negative
    rcases hsmall with rfl | hsmall
    · rw [Nat.cast_zero, zero_mul]
      exact two_zpow_pos _
    · exact decimal_lt hsmall
  · rename_i hnot
    split
    · rename_i hlarge
      exact .infinite (threshold_le_decimal (fun hn => hnot (.inl hn)) hlarge)
    · split
      · rename_i hk
        have hnearest := isNearest_ofRatio negative (n * 10 ^ k.toNat) Nat.one_pos
        rw [Nat.cast_one, div_one] at hnearest
        push_cast at hnearest
        rwa [← zpow_natCast, Int.toNat_of_nonneg hk] at hnearest
      · rename_i hk
        have hnearest := isNearest_ofRatio negative n (Nat.pow_pos (n := (-k).toNat) (show 0 < 10 by decide))
        push_cast at hnearest
        rwa [← zpow_natCast, Int.toNat_of_nonneg (by omega), zpow_neg, div_inv_eq_mul] at hnearest

end WorkflowAudit.Binary64
