import Wireform.Proofs.Binary64.Single

/-!
# Whole doubles

A finite double is a whole number if its exact value is one, and truncating it then changes
nothing. A whole number that is rounded to a double keeps its sign and does not fall below
a power of two that it had reached.

* `isWhole_iff`: when a double is a given whole number.
* `two_pow_le_truncate_ofInt`: rounding stays above powers of two.
-/

namespace Wireform

theorem le_roundHalfEven (num den : ℕ) : num / den ≤ roundHalfEven num den := by
  unfold roundHalfEven
  dsimp only
  split
  · exact Nat.le_refl _
  · split
    · exact Nat.le_succ _
    · exact Nat.le_add_right _ _

namespace FloatFormat

variable (f : FloatFormat)

/-- From an exponent code on, magnitudes are no less than the power of two that the code stands
for. -/
theorem le_units {code word : ℕ} (h : (code + 1) * f.fractions ≤ word) :
    f.fractions * 2 ^ code ≤ f.units word := by
  have hcode : code + 1 ≤ word / f.fractions := (Nat.le_div_iff_mul_le f.fractions_pos).2 h
  have hexponent : 2 ^ code ≤ Nat.pow 2 (word / f.fractions - 1) :=
    Nat.pow_le_pow_right (by decide) (by omega)
  unfold units
  dsimp only
  rw [if_neg (by omega)]
  exact Nat.mul_le_mul (Nat.le_add_right _ _) hexponent

/-- **Rounding stays above powers of two.** -/
theorem two_pow_le_nearest {num e : ℕ} (he : f.fractionBits ≤ e) (hnum : 2 ^ e ≤ num)
    (hfinite : f.nearest num 1 < f.infinity) : 2 ^ e ≤ f.units (f.nearest num 1) := by
  have hne : num ≠ 0 := Nat.ne_of_gt (Nat.lt_of_lt_of_le (Nat.two_pow_pos e) hnum)
  have hlog : e ≤ Nat.log2 num := (Nat.le_log2 hne).2 hnum
  obtain ⟨shift, hshift⟩ : ∃ shift, Nat.log2 num = f.fractionBits + shift :=
    ⟨Nat.log2 num - f.fractionBits, by omega⟩
  -- the significant bits fill the fraction field and the bit above it
  have hquotient : f.fractions ≤ num / 2 ^ shift := by
    rw [Nat.le_div_iff_mul_le (Nat.two_pow_pos shift)]
    calc f.fractions * 2 ^ shift = 2 ^ (f.fractionBits + shift) := (Nat.pow_add 2 _ _).symm
      _ ≤ num := hshift ▸ Nat.log2_self_le hne
  have hword : (shift + 1) * f.fractions ≤ f.nearest num 1 := by
    unfold nearest at hfinite ⊢
    dsimp only at hfinite ⊢
    rw [Nat.div_one, hshift, Nat.add_sub_cancel_left, Nat.one_mul] at hfinite ⊢
    have hround := Nat.le_trans hquotient (le_roundHalfEven num (2 ^ shift))
    rw [Nat.add_mul, Nat.one_mul]
    change _ ≤ min (shift * f.fractions + roundHalfEven num (2 ^ shift)) f.infinity
    change min (shift * f.fractions + roundHalfEven num (2 ^ shift)) f.infinity <
      f.infinity at hfinite
    omega
  calc 2 ^ e ≤ 2 ^ (f.fractionBits + shift) := Nat.pow_le_pow_right (by decide) (by omega)
    _ = f.fractions * 2 ^ shift := Nat.pow_add 2 _ _
    _ ≤ f.units (f.nearest num 1) := f.le_units hword

end FloatFormat

namespace Binary64

open FloatFormat (double)

theorem unitsPerOne_eq : unitsPerOne = 2 ^ double.unitScale := by
  unfold unitsPerOne
  -- the power is not to be computed
  generalize double.unitScale = k
  rfl

theorem unitsPerOne_pos : 0 < unitsPerOne := by
  rw [unitsPerOne_eq]
  exact Nat.two_pow_pos _

theorem natAbs_toUnits (x : Binary64) : x.toUnits.natAbs = x.units := by
  unfold toUnits
  split <;> simp

/-- **A double is a whole number** if its exact value is one. -/
theorem isWhole_iff {x : Binary64} (hx : x.isFinite = true) (n : ℤ) :
    x.isWhole = true ∧ x.truncate = n ↔ x.toUnits = n * unitsPerOne := by
  have hpos := unitsPerOne_pos
  unfold isWhole
  rw [hx, Bool.true_and, decide_eq_true_iff]
  constructor
  · rintro ⟨hmod, rfl⟩
    have hunits : x.units = x.units / unitsPerOne * unitsPerOne :=
      (Nat.div_mul_cancel (Nat.dvd_of_mod_eq_zero hmod)).symm
    have hcast : (x.units : ℤ) = (x.units / unitsPerOne : ℕ) * (unitsPerOne : ℤ) := by
      rw [← Int.natCast_mul, ← hunits]
    unfold toUnits truncate
    dsimp only
    split
    · rw [hcast, Int.neg_mul]
    · exact hcast
  · intro htotal
    have hunits : x.units = n.natAbs * unitsPerOne := by
      rw [← natAbs_toUnits, htotal, Int.natAbs_mul, Int.natAbs_natCast]
    refine ⟨by rw [hunits, Nat.mul_mod_left], ?_⟩
    have hquotient : x.units / unitsPerOne = n.natAbs := by rw [hunits, Nat.mul_div_cancel _ hpos]
    unfold truncate
    dsimp only
    rw [hquotient]
    -- the signs agree, unless the number is zero
    unfold toUnits at htotal
    have hone : (0 : ℤ) < unitsPerOne := Int.natCast_pos.2 hpos
    split
    · next hnegative =>
      rw [if_pos hnegative] at htotal
      have hle : n ≤ 0 := by
        by_contra hgt
        have := Int.mul_pos (Int.not_le.1 hgt) hone
        omega
      omega
    · next hnegative =>
      rw [if_neg hnegative] at htotal
      have hge : 0 ≤ n := by
        by_contra hlt
        have := Int.mul_neg_of_neg_of_pos (Int.not_le.1 hlt) hone
        omega
      omega

theorem nearest_lt_signBit (num den : ℕ) : double.nearest num den < double.signBit :=
  Nat.lt_of_le_of_lt (Nat.min_le_right _ _) (by decide)

theorem isNegative_ofInt (n : ℤ) : (ofInt n).isNegative = decide (n < 0) :=
  isNegative_ofMagnitude _ (nearest_lt_signBit _ _)

theorem magnitude_ofInt (n : ℤ) : (ofInt n).magnitude = double.nearest (n.natAbs * unitsPerOne) 1 :=
  magnitude_ofMagnitude _ (nearest_lt_signBit _ _)

/-- A whole number that is rounded keeps the powers of two below it. -/
theorem two_pow_le_truncate_ofInt {n : ℤ} {k : ℕ} (hk : 2 ^ k ≤ n.natAbs)
    (h : (ofInt n).isWhole = true) :
    2 ^ k ≤ (ofInt n).truncate.natAbs := by
  have hfinite : double.nearest (n.natAbs * unitsPerOne) 1 < double.infinity := by
    unfold isWhole isFinite at h
    rw [Bool.and_eq_true, decide_eq_true_iff, magnitude_ofInt] at h
    exact h.1
  have hscale : 2 ^ (k + double.unitScale) ≤ n.natAbs * unitsPerOne := by
    rw [Nat.pow_add, unitsPerOne_eq]
    exact Nat.mul_le_mul_right _ hk
  have hbits : double.fractionBits ≤ k + double.unitScale := by
    change 52 ≤ k + 1074
    omega
  have hpow : 2 ^ (k + double.unitScale) = 2 ^ k * unitsPerOne := by
    rw [Nat.pow_add, unitsPerOne_eq]
  have hunits : 2 ^ k * unitsPerOne ≤ (ofInt n).units := by
    rw [units, magnitude_ofInt, ← hpow]
    exact double.two_pow_le_nearest hbits hscale hfinite
  have hquotient : 2 ^ k ≤ (ofInt n).units / unitsPerOne :=
    (Nat.le_div_iff_mul_le unitsPerOne_pos).2 hunits
  unfold truncate
  dsimp only
  split <;> omega

/-- What is rounded from a whole number has its sign. -/
theorem truncate_ofInt_nonneg {n : ℤ} (hn : 0 ≤ n) : 0 ≤ (ofInt n).truncate := by
  unfold truncate
  rw [isNegative_ofInt, if_neg (by simpa using hn)]
  exact Int.natCast_nonneg _

theorem truncate_ofInt_nonpos {n : ℤ} (hn : n < 0) : (ofInt n).truncate ≤ 0 := by
  unfold truncate
  rw [isNegative_ofInt, if_pos (by simpa using hn)]
  exact Int.neg_nonpos_of_nonneg (Int.natCast_nonneg _)

end Binary64

end Wireform
