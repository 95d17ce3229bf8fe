import Mathlib.Algebra.Order.Field.Rat
import Mathlib.Data.Rat.Lemmas
import Mathlib.Tactic.FieldSimp
import Mathlib.Tactic.Linarith
import Mathlib.Tactic.Positivity
import Wireform.Proofs.Binary64.Equality
import Wireform.Proofs.Binary64.Rounding

/-!
# Exact values

A finite double stands for a rational number, and a rational number is rounded to a double: to
the nearest one, of two equally near ones to the even one, and to infinity where it is too great.

* `value`: the exact value of a finite double.
* `ofValue`: the double to which a rational number is rounded.
* `ofValue_nearest`, `ofValue_even`, `isFinite_ofValue_iff`: **what rounding gives.**
-/

namespace Wireform.Binary64

open FloatFormat (double)

/-- The exact value of a finite double. -/
def value (x : Binary64) : ℚ := x.toUnits / unitsPerOne

/-- The double to which an exact value is rounded; the sign is that of zero. -/
def ofValue (negative : Bool) (q : ℚ) : Binary64 :=
  ofRatio (if q = 0 then negative else decide (q < 0)) q.num.natAbs q.den

variable {x y : Binary64} {negative : Bool} {q : ℚ} {num den : ℕ}

theorem unitsPerOne_cast_pos : (0 : ℚ) < unitsPerOne := Nat.cast_pos.2 unitsPerOne_pos

/-! ### Values -/

theorem value_mul (x : Binary64) : x.value * unitsPerOne = x.toUnits :=
  div_mul_cancel₀ _ unitsPerOne_cast_pos.ne'

theorem abs_value_mul (x : Binary64) : |x.value| * unitsPerOne = x.units := by
  have habs : |(x.toUnits : ℚ)| = x.units := by
    rw [← Int.cast_abs, Int.abs_eq_natAbs, natAbs_toUnits, Int.cast_natCast]
  rw [← habs, ← value_mul, abs_mul, abs_of_pos unitsPerOne_cast_pos]

theorem abs_value (x : Binary64) : |x.value| = x.units / unitsPerOne :=
  eq_div_of_mul_eq unitsPerOne_cast_pos.ne' x.abs_value_mul

theorem value_nonpos (h : x.isNegative = true) : x.value ≤ 0 := by
  refine div_nonpos_of_nonpos_of_nonneg ?_ unitsPerOne_cast_pos.le
  rw [toUnits, if_pos h]
  exact_mod_cast Int.neg_nonpos_of_nonneg (Int.natCast_nonneg _)

theorem value_nonneg (h : x.isNegative = false) : 0 ≤ x.value := by
  refine div_nonneg ?_ unitsPerOne_cast_pos.le
  rw [toUnits, if_neg (by simp [h])]
  exact_mod_cast Int.natCast_nonneg _

theorem value_eq_zero_iff : x.value = 0 ↔ x.isZero = true := by
  rw [← abs_eq_zero, abs_value, div_eq_zero_iff, or_iff_left unitsPerOne_cast_pos.ne',
    Nat.cast_eq_zero, units, double.units_eq_zero, isZero, decide_eq_true_iff]

theorem value_zero (negative : Bool) : (zero negative).value = 0 :=
  value_eq_zero_iff.2 (by cases negative <;> rfl)

/-! ### Rounding -/

theorem abs_eq_div (q : ℚ) : |q| = q.num.natAbs / q.den := by
  rw [Nat.cast_natAbs, Int.cast_abs, ← Rat.num_div_den q, abs_div, Rat.num_div_den, Nat.abs_cast]

/-- **Rounding depends on the value only**, and on the sign of zero. -/
theorem ofUnitRatio_eq_ofValue {s : Bool} (hden : 0 < den)
    (hq : (num : ℚ) = |q| * (den * unitsPerOne)) (hzero : q = 0 → negative = s)
    (hsign : q ≠ 0 → (negative = true ↔ q < 0)) :
    ofUnitRatio negative num den = ofValue s q := by
  have hnearest : double.nearest num den = double.nearest (q.num.natAbs * unitsPerOne) q.den := by
    refine double.nearest_eq hden q.den_pos ?_
    have hcast : (num : ℚ) * q.den = q.num.natAbs * unitsPerOne * den := by
      have hq0 : (q.den : ℚ) ≠ 0 := Nat.cast_ne_zero.2 q.den_nz
      rw [hq, abs_eq_div]
      generalize (unitsPerOne : ℚ) = one
      field_simp
    exact_mod_cast hcast
  rw [ofUnitRatio, ofValue, ofRatio, ofUnitRatio, hnearest]
  congr 1
  split
  · next heq => exact hzero heq
  · next hne => rw [Bool.eq_iff_iff, hsign hne, decide_eq_true_iff]

/-- A natural number is rounded like any other value. -/
theorem ofNat_eq (n : ℕ) : ofNat n = ofValue false n := by
  have hsign : (if (n : ℚ) = 0 then false else decide ((n : ℚ) < 0)) = false := by
    split
    · rfl
    · exact decide_eq_false (Nat.cast_nonneg n).not_gt
  rw [ofValue, hsign, Rat.num_natCast, Rat.den_natCast, Int.natAbs_natCast, ofNat]

theorem magnitude_ofValue : (ofValue negative q).magnitude =
    double.nearest (q.num.natAbs * unitsPerOne) q.den :=
  magnitude_ofMagnitude _ (nearest_lt_signBit _ _)

/-- What is rounded keeps its sign. -/
theorem isNegative_ofValue : (ofValue negative q).isNegative = if q = 0 then negative
    else decide (q < 0) :=
  isNegative_ofMagnitude _ (nearest_lt_signBit _ _)

theorem value_ofValue_mul_nonneg (negative : Bool) (q : ℚ) :
    0 ≤ (ofValue negative q).value * q := by
  rcases lt_trichotomy q 0 with hneg | rfl | hpos
  · have hsign : (ofValue negative q).isNegative = true := by
      rw [isNegative_ofValue, if_neg hneg.ne, decide_eq_true hneg]
    exact mul_nonneg_of_nonpos_of_nonpos (value_nonpos hsign) hneg.le
  · rw [mul_zero]
  · have hsign : (ofValue negative q).isNegative = false := by
      rw [isNegative_ofValue, if_neg hpos.ne', decide_eq_false hpos.le.not_gt]
    exact mul_nonneg (value_nonneg hsign) hpos.le

/-- How far a magnitude is from an exact value, counted in parts of a unit. -/
theorem abs_abs_value_sub (x : Binary64) (q : ℚ) : |abs x.value - abs q| * (q.den * unitsPerOne) =
    Nat.dist (x.units * q.den) (q.num.natAbs * unitsPerOne) := by
  have hden : (0 : ℚ) < q.den := Nat.cast_pos.2 q.den_pos
  have hpos : (0 : ℚ) < q.den * unitsPerOne := mul_pos hden unitsPerOne_cast_pos
  have hdist : ∀ a b : ℕ, ((Nat.dist a b : ℕ) : ℚ) = |(a : ℚ) - b| := by
    intro a b
    rcases Nat.le_total a b with hle | hle
    · rw [Nat.dist_eq_sub_of_le hle, Nat.cast_sub hle, abs_sub_comm, abs_of_nonneg]
      exact sub_nonneg.2 (Nat.cast_le.2 hle)
    · rw [Nat.dist_eq_sub_of_le_right hle, Nat.cast_sub hle, abs_of_nonneg]
      exact sub_nonneg.2 (Nat.cast_le.2 hle)
  rw [hdist, ← abs_of_pos hpos, ← abs_mul]
  congr 1
  push_cast
  rw [← x.abs_value_mul, abs_eq_div q]
  generalize (unitsPerOne : ℚ) = one
  field_simp

theorem abs_sub_of_mul_nonneg {a b : ℚ} (h : 0 ≤ a * b) : |a - b| = |abs a - abs b| := by
  rcases mul_nonneg_iff.1 h with ⟨ha, hb⟩ | ⟨ha, hb⟩
  · rw [abs_of_nonneg ha, abs_of_nonneg hb]
  · rw [abs_of_nonpos ha, abs_of_nonpos hb, abs_sub_comm]
    congr 1
    ring

/-- The magnitude that a value is rounded to is the nearest one, and of two that are equally near
the even one. -/
theorem abs_abs_value_sub_le (hfinite : (ofValue negative q).isFinite = true) (y : Binary64) :
    |abs (ofValue negative q).value - abs q| ≤ |abs y.value - abs q| ∧
      (|abs (ofValue negative q).value - abs q| = |abs y.value - abs q| →
        y.units ≠ (ofValue negative q).units → (ofValue negative q).magnitude % 2 = 0) := by
  have hpos : (0 : ℚ) < q.den * unitsPerOne :=
    mul_pos (Nat.cast_pos.2 q.den_pos) unitsPerOne_cast_pos
  have hword := magnitude_lt hfinite
  obtain ⟨hle, heven⟩ := FloatFormat.nearest_le_dist (f := double) q.den_pos (by decide)
    (magnitude_ofValue ▸ hword) y.magnitude
  rw [← @magnitude_ofValue negative] at hle heven
  constructor
  · refine le_of_mul_le_mul_right ?_ hpos
    rw [abs_abs_value_sub, abs_abs_value_sub]
    exact_mod_cast hle
  · intro heq
    refine heven ?_
    have hmul := congrArg (· * ((q.den : ℚ) * unitsPerOne)) heq
    rw [abs_abs_value_sub, abs_abs_value_sub] at hmul
    exact_mod_cast hmul

/-- **No finite double is nearer** to a value than the one to which it is rounded. -/
theorem ofValue_nearest (hfinite : (ofValue negative q).isFinite = true) (y : Binary64) :
    |(ofValue negative q).value - q| ≤ |y.value - q| := by
  rw [abs_sub_of_mul_nonneg (value_ofValue_mul_nonneg negative q)]
  exact (abs_abs_value_sub_le hfinite y).1.trans (abs_abs_sub_abs_le _ _)

/-- **Of two that are equally near** the one with the even word is taken. -/
theorem ofValue_even (hfinite : (ofValue negative q).isFinite = true)
    (heq : |(ofValue negative q).value - q| = |y.value - q|)
    (hne : y.value ≠ (ofValue negative q).value) :
    (ofValue negative q).magnitude % 2 = 0 := by
  obtain ⟨hle, heven⟩ := abs_abs_value_sub_le hfinite y
  have hsign := value_ofValue_mul_nonneg negative q
  have hsame := abs_sub_of_mul_nonneg hsign
  have hdist := hle.antisymm ((abs_abs_sub_abs_le y.value q).trans_eq (heq.symm.trans hsame))
  refine heven hdist fun hunits => hne ?_
  -- the same magnitude with the other sign is as near only if both are zero
  have habs : |y.value| = |(ofValue negative q).value| := by rw [abs_value, abs_value, hunits]
  rcases abs_eq_abs.1 habs with hvalue | hvalue
  · exact hvalue
  · rw [hvalue] at heq
    rcases abs_eq_abs.1 heq with hequal | hequal
    · rw [hvalue]
      linarith
    · obtain rfl : q = 0 := by linarith
      have hzero := ofValue_nearest hfinite (zero false)
      rw [value_zero, sub_zero, sub_zero, abs_zero, abs_nonpos_iff] at hzero
      rw [hvalue, hzero, neg_zero]

/-- **A value is too great** from the middle between the greatest finite double and the next power
of two on. -/
theorem isFinite_ofValue_iff : (ofValue negative q).isFinite = true ↔ |q| < 2 ^ 1024 - 2 ^ 970 := by
  have hden : (0 : ℚ) < q.den := Nat.cast_pos.2 q.den_pos
  have hone : (0 : ℚ) < unitsPerOne := unitsPerOne_cast_pos
  have hcodes : double.exponentCodes = 2045 + 3 := rfl
  have hbits : 4 * double.fractions - 1 = 2 ^ 54 - 1 := rfl
  have htop : ((2 : ℚ) ^ 2045) = 2 * 2 ^ 970 * unitsPerOne := by
    rw [unitsPerOne_eq, Nat.cast_pow, Nat.cast_ofNat, ← pow_succ', ← pow_add]
    rfl
  have hbound : ((2 : ℚ) ^ 1024) = 2 ^ 54 * 2 ^ 970 := by rw [← pow_add]
  rw [isFinite, decide_eq_true_iff, magnitude_ofValue,
    FloatFormat.nearest_lt_infinity_iff q.den_pos hcodes, hbits, abs_eq_div,
    div_lt_iff₀ hden, hbound, ← @Nat.cast_lt ℚ]
  simp only [Nat.cast_mul, Nat.cast_pow, Nat.cast_ofNat]
  rw [htop, Nat.cast_sub (by decide)]
  generalize (2 : ℚ) ^ 970 = w
  constructor
  · intro h
    refine lt_of_mul_lt_mul_right ?_ (mul_pos two_pos hone).le
    calc _ = _ := ?_
      _ < _ := h
      _ = _ := ?_
    · ring
    · ring
  · intro h
    have hmul := mul_lt_mul_of_pos_right h (mul_pos two_pos hone)
    calc _ = _ := ?_
      _ < _ := hmul
      _ = _ := ?_
    · ring
    · ring

/-- **A natural number without too many bits** is a double. -/
theorem units_ofNat {n : ℕ} (hn : n < 2 ^ 53) :
    (ofNat n).units = n * unitsPerOne ∧ (ofNat n).isFinite = true := by
  rcases Nat.eq_zero_or_pos n with rfl | hpos
  · exact ⟨by decide +kernel, by decide +kernel⟩
  have hlog : Nat.log2 n ≤ double.fractionBits :=
    Nat.le_of_lt_succ ((Nat.log2_lt (Nat.ne_of_gt hpos)).2 hn)
  obtain ⟨word, hword, hlt⟩ := double.exists_units (e := double.unitScale) (Nat.ne_of_gt hpos) hlog
    (Nat.le_trans (by decide) (Nat.le_add_left _ _))
  have hfinite : word < double.infinity := by
    have hcodes : double.fractionBits = 52 ∧ double.unitScale = 1074 ∧
        double.exponentCodes - 1 = 2047 := by
      decide
    exact Nat.lt_of_lt_of_le hlt (Nat.mul_le_mul_right _ (by omega))
  have hself : double.nearest (n * unitsPerOne) 1 = word := by
    have hback := double.nearest_units hfinite Nat.one_pos
    rwa [hword, Nat.mul_one, ← unitsPerOne_eq] at hback
  have hmagnitude : (ofNat n).magnitude = word := by
    rw [ofNat, ofRatio, ofUnitRatio, hself]
    exact magnitude_ofMagnitude _ (hself ▸ nearest_lt_signBit _ _)
  rw [units, isFinite, hmagnitude, hword, unitsPerOne_eq]
  exact ⟨rfl, decide_eq_true hfinite⟩

end Wireform.Binary64
