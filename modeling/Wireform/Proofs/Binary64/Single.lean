import Mathlib.Algebra.Group.Nat.Defs
import Mathlib.Tactic.Common
import Wireform.Binary64.Single

/-!
# Singles come back

Rounding to a format gives back every magnitude of the format itself. A single has fewer
fraction bits and a smaller exponent range than a double, so widening is exact, and
narrowing finds the single again.

* `nearest_units`: a magnitude of a format is its own nearest one.
* `exists_units`: which numbers are magnitudes of a format.
* `toSingleBits_ofSingleBits`: a finite single survives being widened and narrowed.
-/

namespace Wireform

theorem roundHalfEven_mul (q : ℕ) {den : ℕ} (hden : 0 < den) : roundHalfEven (q * den) den = q := by
  unfold roundHalfEven
  rw [Nat.mul_div_cancel _ hden, Nat.mul_mod_left]
  exact if_pos (by omega)

namespace FloatFormat

variable (f : FloatFormat)

theorem fractions_pos : 0 < f.fractions := Nat.two_pow_pos _

theorem units_of_lt {word : ℕ} (h : word < f.fractions) : f.units word = word := by
  unfold units
  dsimp only
  rw [Nat.div_eq_of_lt h, if_pos rfl, Nat.mod_eq_of_lt h]

theorem units_mul_add {code fraction : ℕ} (h : fraction < f.fractions) :
    f.units ((code + 1) * f.fractions + fraction) = (f.fractions + fraction) * 2 ^ code := by
  have hcode : ((code + 1) * f.fractions + fraction) / f.fractions = code + 1 := by
    rw [Nat.mul_comm, Nat.mul_add_div f.fractions_pos, Nat.div_eq_of_lt h, Nat.add_zero]
  have hfraction : ((code + 1) * f.fractions + fraction) % f.fractions = fraction := by
    rw [Nat.mul_comm, Nat.mul_add_mod, Nat.mod_eq_of_lt h]
  unfold units
  dsimp only
  rw [hcode, hfraction, if_neg (Nat.succ_ne_zero code)]
  rfl

theorem log2_mul_two_pow {m k : ℕ} (hm : m ≠ 0) : Nat.log2 (m * 2 ^ k) = Nat.log2 m + k := by
  have hpos : 0 < 2 ^ k := Nat.two_pow_pos k
  have hlow := Nat.log2_self_le hm
  have hhigh := Nat.lt_log2_self (n := m)
  rw [Nat.log2_eq_iff (Nat.mul_ne_zero hm (Nat.ne_of_gt hpos))]
  refine ⟨?_, ?_⟩
  · rw [Nat.pow_add]
    exact Nat.mul_le_mul_right _ hlow
  · rw [Nat.add_right_comm, Nat.pow_add]
    exact Nat.mul_lt_mul_of_pos_right hhigh hpos

/-- **A magnitude of a format is its own nearest one**, however the units are subdivided. -/
theorem nearest_units {word k : ℕ} (hword : word < f.infinity) (hk : 0 < k) :
    f.nearest (f.units word * k) k = word := by
  unfold nearest
  dsimp only
  rw [Nat.mul_div_cancel _ hk]
  rcases Nat.lt_or_ge word f.fractions with hlt | hge
  · rw [f.units_of_lt hlt]
    -- below the fraction field a word counts the units itself
    have hlog : Nat.log2 word - f.fractionBits = 0 := by
      rcases Nat.eq_zero_or_pos word with rfl | hpos
      · simp
      · have := (Nat.log2_lt (Nat.ne_of_gt hpos)).2 hlt
        omega
    rw [hlog, Nat.zero_mul, Nat.zero_add]
    change min (roundHalfEven (word * k) (k * 1)) f.infinity = word
    rw [Nat.mul_one, roundHalfEven_mul word hk, Nat.min_eq_left (Nat.le_of_lt hword)]
  · -- the fraction field and the exponent code, which is not zero
    obtain ⟨code, fraction, hfraction, rfl⟩ : ∃ code fraction, fraction < f.fractions ∧
        word = (code + 1) * f.fractions + fraction := by
      have hcode : 0 < word / f.fractions := Nat.div_pos hge f.fractions_pos
      refine ⟨word / f.fractions - 1, word % f.fractions, Nat.mod_lt _ f.fractions_pos, ?_⟩
      rw [Nat.sub_add_cancel hcode, Nat.div_add_mod']
    rw [f.units_mul_add hfraction]
    have hlog : Nat.log2 (f.fractions + fraction) = f.fractionBits := by
      rw [Nat.log2_eq_iff (by have := f.fractions_pos; omega), Nat.pow_succ]
      change f.fractions ≤ _ ∧ _ < f.fractions * 2
      omega
    have hne : f.fractions + fraction ≠ 0 := by
      have := f.fractions_pos
      omega
    rw [log2_mul_two_pow hne, hlog, Nat.add_sub_cancel_left]
    change min (code * f.fractions + roundHalfEven _ (k * 2 ^ code)) f.infinity = _
    have hscale : (f.fractions + fraction) * 2 ^ code * k =
        (f.fractions + fraction) * (k * 2 ^ code) := by
      rw [Nat.mul_assoc, Nat.mul_comm (2 ^ code)]
    rw [hscale, roundHalfEven_mul _ (Nat.mul_pos hk (Nat.two_pow_pos code)), ← Nat.add_assoc]
    have hword' : code * f.fractions + f.fractions + fraction =
        (code + 1) * f.fractions + fraction := by
      rw [Nat.add_mul, Nat.one_mul]
    rw [hword', Nat.min_eq_left (Nat.le_of_lt hword)]

/-- A number with no more than the significant bits of a format is a magnitude of it. -/
theorem exists_units {m e : ℕ} (hm : m ≠ 0) (hbits : Nat.log2 m ≤ f.fractionBits)
    (he : f.fractionBits ≤ Nat.log2 m + e) : ∃ word, f.units word = m * 2 ^ e ∧
      word < (Nat.log2 m + e - f.fractionBits + 2) * f.fractions := by
  -- shifted up, the significant bits fill the fraction field and the bit above it
  obtain ⟨fraction, hfraction, hsum⟩ : ∃ fraction, fraction < f.fractions ∧
      f.fractions + fraction = m * 2 ^ (f.fractionBits - Nat.log2 m) := by
    have hlog := log2_mul_two_pow (k := f.fractionBits - Nat.log2 m) hm
    rw [Nat.add_sub_cancel' hbits, Nat.log2_eq_iff
      (Nat.mul_ne_zero hm (Nat.ne_of_gt (Nat.two_pow_pos _))), Nat.pow_succ] at hlog
    change f.fractions ≤ _ ∧ _ < f.fractions * 2 at hlog
    exact ⟨m * 2 ^ (f.fractionBits - Nat.log2 m) - f.fractions, by omega, by omega⟩
  refine ⟨(Nat.log2 m + e - f.fractionBits + 1) * f.fractions + fraction, ?_, ?_⟩
  · rw [f.units_mul_add hfraction, hsum, Nat.mul_assoc, ← Nat.pow_add]
    congr 2
    omega
  · rw [Nat.add_mul _ 2, Nat.add_mul _ 1]
    omega

/-- The magnitudes of a format have no more than its significant bits. -/
theorem units_bits {word : ℕ} (hword : word < f.infinity) : ∃ m e, f.units word = m * 2 ^ e ∧
    m < 2 * f.fractions ∧ e + 1 < f.exponentCodes := by
  have hcodes : word / f.fractions < f.exponentCodes - 1 := Nat.div_lt_of_lt_mul (by
    rwa [Nat.mul_comm])
  have hsome : 0 < f.exponentCodes - 1 := Nat.lt_of_le_of_lt (Nat.zero_le _) hcodes
  rcases Nat.lt_or_ge word f.fractions with hlt | hge
  · refine ⟨word, 0, ?_, by omega, by omega⟩
    rw [f.units_of_lt hlt, Nat.pow_zero, Nat.mul_one]
  · have hcode : 0 < word / f.fractions := Nat.div_pos hge f.fractions_pos
    have hfraction := Nat.mod_lt word f.fractions_pos
    refine ⟨f.fractions + word % f.fractions, word / f.fractions - 1, ?_, by omega, by omega⟩
    rw [← f.units_mul_add hfraction, Nat.sub_add_cancel hcode, Nat.div_add_mod']

end FloatFormat

namespace Binary64

open FloatFormat (single double)

/-- A unit of a single is a power of two in units of a double. -/
theorem unitsPerSingleUnit_eq : unitsPerSingleUnit = 2 ^ (double.unitScale - single.unitScale) := by
  unfold unitsPerSingleUnit
  -- the power is not to be computed
  generalize double.unitScale - single.unitScale = k
  rfl

/-- **Widening is exact.** -/
theorem exists_double_units {word : ℕ} (hword : word < single.infinity) :
    ∃ wide, wide < double.infinity ∧
    double.units wide = single.units word * unitsPerSingleUnit := by
  obtain ⟨m, e, hunits, hm, he⟩ := single.units_bits hword
  change m < 2 * 2 ^ 23 at hm
  change e + 1 < 256 at he
  rcases Nat.eq_zero_or_pos m with rfl | hpos
  · refine ⟨0, by decide, ?_⟩
    rw [hunits, Nat.zero_mul, Nat.zero_mul]
    rfl
  · have hne := Nat.ne_of_gt hpos
    have hlog : Nat.log2 m < 24 := (Nat.log2_lt hne).2 hm
    have hbits : double.fractionBits = 52 := rfl
    have hscale : double.unitScale - single.unitScale = 925 := rfl
    -- the significant bits of a single are fewer than those of a double
    obtain ⟨wide, hwide, hlt⟩ := double.exists_units (m := m)
      (e := e + (double.unitScale - single.unitScale)) hne (by omega) (by omega)
    refine ⟨wide, Nat.lt_of_lt_of_le hlt ?_, ?_⟩
    · rw [FloatFormat.infinity, hbits]
      exact Nat.mul_le_mul_right _ (by change _ ≤ 2048 - 1; omega)
    · rw [hwide, hunits, Nat.pow_add, ← Nat.mul_assoc, unitsPerSingleUnit_eq]

theorem magnitude_ofMagnitude (negative : Bool) {word : ℕ} (h : word < double.signBit) :
    (ofMagnitude negative word).magnitude = word := by
  have hbit : double.signBit = 9223372036854775808 := rfl
  rw [hbit] at h
  cases negative <;> simp [ofMagnitude, magnitude, hbit] <;> omega

theorem isNegative_ofMagnitude (negative : Bool) {word : ℕ} (h : word < double.signBit) :
    (ofMagnitude negative word).isNegative = negative := by
  have hbit : double.signBit = 9223372036854775808 := rfl
  rw [hbit] at h
  cases negative <;> simp [ofMagnitude, isNegative, hbit] <;> omega

/-- The magnitude of a single whose double is finite is finite. -/
theorem lt_infinity_of_isFinite {bits : UInt32} (h : (ofSingleBits bits).isFinite = true) :
    bits.toNat % single.signBit < single.infinity := by
  unfold ofSingleBits at h
  dsimp only at h
  split at h
  · exact absurd h (by decide)
  · split at h
    · next hinfinite =>
      have hlt : double.infinity < double.signBit := by decide
      have hmagnitude := magnitude_ofMagnitude (decide (single.signBit ≤ bits.toNat)) hlt
      unfold isFinite infinity at h
      rw [hmagnitude] at h
      simp at h
    · omega

/-- **A finite single survives being widened and narrowed.** -/
theorem toSingleBits_ofSingleBits {bits : UInt32} (h : (ofSingleBits bits).isFinite = true) :
    (ofSingleBits bits).toSingleBits = bits := by
  have hword := lt_infinity_of_isFinite h
  obtain ⟨wide, hwide, hunits⟩ := exists_double_units hword
  have hsign : wide < double.signBit := Nat.lt_trans hwide (by decide)
  -- the double that is nearest is the exact one
  have hnearest := double.nearest_units hwide Nat.one_pos
  rw [Nat.mul_one, hunits] at hnearest
  have hdouble : ofSingleBits bits = ofMagnitude (decide (single.signBit ≤ bits.toNat)) wide := by
    unfold ofSingleBits
    dsimp only
    rw [if_neg (by omega), if_neg (by omega), ofUnitRatio, hnearest]
  have hmagnitude := magnitude_ofMagnitude (decide (single.signBit ≤ bits.toNat)) hsign
  have hpos : 0 < unitsPerSingleUnit := by
    rw [unitsPerSingleUnit_eq]
    exact Nat.two_pow_pos _
  have hback := single.nearest_units hword hpos
  rw [hdouble, toSingleBits, isNegative_ofMagnitude _ hsign, isNaN, isInfinite, units,
    hmagnitude, hunits, hback]
  -- the sign is put in front of the magnitude again
  have hsplit : (if decide (single.signBit ≤ bits.toNat) = true then
      single.signBit + bits.toNat % single.signBit else bits.toNat % single.signBit) =
        bits.toNat := by
    have hbit : single.signBit = 2147483648 := rfl
    have hlt := bits.toNat_lt
    rw [hbit]
    split
    · next hle =>
      have := of_decide_eq_true hle
      omega
    · next hle =>
      have := of_decide_eq_false (Bool.eq_false_iff.2 hle)
      omega
  -- the double is neither infinite nor no number
  have hnan : ¬decide (double.infinity < wide) = true := by
    rw [decide_eq_true_iff]
    omega
  have hinfinite : ¬decide (wide = double.infinity) = true := by
    rw [decide_eq_true_iff]
    omega
  rw [if_neg hnan, if_neg hinfinite, hsplit, UInt32.ofNat_toNat]

end Binary64

end Wireform
