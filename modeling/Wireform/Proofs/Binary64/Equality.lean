import Wireform.Proofs.Binary64.Rounding

/-!
# Doubles are equal by value

A finite double is determined by its exact value, but for the sign of zero, and numeric equality
compares just that. Every integer of 64 bits has a finite double nearest to it, which is the
integer itself if any double is.

* `eq_iff`: finite doubles are equal if and only if their exact values are.
* `isFinite_ofInt`: integers of 64 bits do not overflow.
* `toUnits_ofInt`: an integer that is a double is its own nearest double.
-/

namespace Wireform

namespace FloatFormat

variable (f : FloatFormat)

theorem units_eq_zero {word : ℕ} : f.units word = 0 ↔ word = 0 := by
  have hzero : f.units 0 = 0 := f.units_of_lt f.fractions_pos
  have hsame := f.units_strictMono.injective.eq_iff (a := word) (b := 0)
  rwa [hzero] at hsame

/-- Rounding does not go up by more than one exponent code. -/
theorem nearest_le {num k : ℕ} (h : num < 2 ^ (k + f.fractionBits + 1)) :
    f.nearest num 1 ≤ (k + 2) * f.fractions := by
  have hpos : 0 < 2 ^ (Nat.log2 num - f.fractionBits) := Nat.two_pow_pos _
  rcases Nat.eq_zero_or_pos num with rfl | hnum
  · refine Nat.le_trans (Nat.min_le_left _ _) ?_
    have hzero : roundHalfEven 0 (1 * Nat.pow 2 (Nat.log2 (0 / 1) - f.fractionBits)) = 0 := by
      have hmul := roundHalfEven_mul 0
        (Nat.mul_pos Nat.one_pos (Nat.two_pow_pos (Nat.log2 (0 / 1) - f.fractionBits)))
      rwa [Nat.zero_mul] at hmul
    have hshift : Nat.log2 (0 / 1) - f.fractionBits = 0 := by simp
    rw [hzero, hshift, Nat.zero_mul]
    exact Nat.zero_le _
  · have hlog : Nat.log2 num < k + f.fractionBits + 1 := (Nat.log2_lt (Nat.ne_of_gt hnum)).2 h
    -- what is left of the number has the significant bits only
    have hquotient : num / 2 ^ (Nat.log2 num - f.fractionBits) < 2 * f.fractions := by
      rw [Nat.div_lt_iff_lt_mul hpos]
      calc num < 2 ^ (Nat.log2 num + 1) := Nat.lt_log2_self
        _ ≤ 2 ^ (f.fractionBits + 1 + (Nat.log2 num - f.fractionBits)) :=
        Nat.pow_le_pow_right (by decide) (by omega)
        _ = 2 * f.fractions * 2 ^ (Nat.log2 num - f.fractionBits) := by
          rw [Nat.pow_add, Nat.pow_succ']
          rfl
    have hround : roundHalfEven num (1 * Nat.pow 2 (Nat.log2 num - f.fractionBits)) ≤
        2 * f.fractions := by
      rw [Nat.one_mul]
      exact Nat.le_trans (roundHalfEven_le _ _) hquotient
    have hshift : (Nat.log2 num - f.fractionBits) * f.fractions ≤ k * f.fractions :=
      Nat.mul_le_mul_right _ (by omega)
    unfold nearest
    dsimp only
    rw [Nat.div_one, Nat.add_mul]
    exact Nat.le_trans (Nat.min_le_left _ _) (Nat.add_le_add hshift hround)

end FloatFormat

namespace Binary64

open FloatFormat (double)

variable {x y : Binary64} {n : ℤ}

theorem magnitude_lt (hx : x.isFinite = true) : x.magnitude < double.infinity :=
  of_decide_eq_true hx

theorem isNaN_eq_false (hx : x.isFinite = true) : x.isNaN = false := by
  have hlt := magnitude_lt hx
  exact decide_eq_false (by omega)

/-- **Doubles are equal by value.** -/
theorem eq_iff (hx : x.isFinite = true) (hy : y.isFinite = true) :
    x.eq y = true ↔ x.toUnits = y.toUnits := by
  have hsame := double.units_strictMono.injective.eq_iff (a := x.magnitude) (b := y.magnitude)
  have hzero : double.units x.magnitude = 0 ↔ x.magnitude = 0 := double.units_eq_zero
  have hzero' : double.units y.magnitude = 0 ↔ y.magnitude = 0 := double.units_eq_zero
  unfold eq
  rw [isNaN_eq_false hx, isNaN_eq_false hy]
  simp only [Bool.not_false, Bool.true_and, decide_eq_true_eq]
  unfold rank toUnits units
  -- of two different signs both are zeros
  split <;> split <;> omega

/-- The double of an integer of 64 bits is finite. -/
theorem isFinite_ofInt (h : n.natAbs < 2 ^ 65) : (ofInt n).isFinite = true := by
  have hbits : 1086 + double.fractionBits + 1 = 65 + double.unitScale := by decide
  have hnum : n.natAbs * unitsPerOne < 2 ^ (1086 + double.fractionBits + 1) := by
    rw [hbits, unitsPerOne_eq]
    -- the power itself is too large to be computed
    generalize double.unitScale = scale
    rw [Nat.pow_add]
    exact Nat.mul_lt_mul_of_pos_right h (Nat.two_pow_pos _)
  have hle := double.nearest_le hnum
  have hlt : (1086 + 2) * double.fractions < double.infinity := by decide
  refine decide_eq_true ?_
  rw [magnitude_ofInt]
  exact Nat.lt_of_le_of_lt hle hlt

/-- An integer that is a double is its own nearest double. -/
theorem toUnits_ofInt (hx : x.isFinite = true) (h : x.toUnits = n * unitsPerOne) :
    (ofInt n).toUnits = n * unitsPerOne := by
  have hunits : x.units = n.natAbs * unitsPerOne := by
    rw [← natAbs_toUnits, h, Int.natAbs_mul, Int.natAbs_natCast]
  have hmagnitude : (ofInt n).magnitude = x.magnitude := by
    rw [magnitude_ofInt, ← hunits]
    have hnearest := double.nearest_units (magnitude_lt hx) Nat.one_pos
    rwa [Nat.mul_one] at hnearest
  have hsame : (ofInt n).units = n.natAbs * unitsPerOne := by
    rw [units, hmagnitude, ← hunits, units]
  unfold toUnits
  rw [hsame, isNegative_ofInt]
  split
  · next hneg =>
    have habs : (n.natAbs : ℤ) = -n := by
      have := of_decide_eq_true hneg
      omega
    rw [Int.natCast_mul, habs, Int.neg_mul, Int.neg_neg]
  · next hneg =>
    have habs : (n.natAbs : ℤ) = n := by
      have := of_decide_eq_false (Bool.eq_false_iff.2 hneg)
      omega
    rw [Int.natCast_mul, habs]

/-- Rounding an integer keeps its sign. -/
theorem toUnits_ofInt_nonpos (hn : n < 0) : (ofInt n).toUnits ≤ 0 := by
  unfold toUnits
  rw [isNegative_ofInt, if_pos (decide_eq_true hn)]
  omega

theorem toUnits_ofInt_pos (h : n.natAbs < 2 ^ 65) (hn : 0 < n) : 0 < (ofInt n).toUnits := by
  have hfinite := magnitude_lt (isFinite_ofInt h)
  have hge : 2 ^ double.unitScale ≤ n.natAbs * unitsPerOne := by
    rw [unitsPerOne_eq]
    exact Nat.le_mul_of_pos_left _ (by omega)
  have hunits : 2 ^ double.unitScale ≤ (ofInt n).units := by
    rw [magnitude_ofInt] at hfinite
    rw [units, magnitude_ofInt]
    exact double.two_pow_le_nearest (by decide) hge hfinite
  have hpos : 0 < 2 ^ double.unitScale := Nat.two_pow_pos _
  unfold toUnits
  rw [isNegative_ofInt, if_neg (by simpa using Int.le_of_lt hn)]
  omega

end Binary64

end Wireform
