import Wireform.Json.Reader
import Wireform.Proofs.Binary64.Operations

/-!
# When a number is read exactly

The significand of a number and a power of ten are rounded to doubles before they are multiplied
or divided. If both of them are doubles, as they are below `2 ^ 53` and up to `10 ^ 22`, only
the result is rounded, and the number is read as the double nearest to it. Beyond that it may be
read as another one.

* `takeSignificand_eq`: digits that all fit.
* `scale?_eq`: a significand and a power of ten that are doubles.
* `numberOfParts?_exact`: **such a number is read as the double nearest to it.**
-/

namespace Wireform

theorem Binary64.reading_of_units {x : Binary64} {q : ℚ} (hx : x.isFinite = true)
    (hsign : x.isNegative = false) (hunits : (x.units : ℚ) = q * unitsPerOne) :
    x.reading = .finite false q := by
  have hone := unitsPerOne_cast_pos
  have hvalue : x.value = q := by
    rw [← abs_of_nonneg (value_nonneg hsign), abs_value, hunits, mul_div_cancel_right₀ _ hone.ne']
  have hinfinite := isFinite_eq x
  rw [hx, Eq.comm, Bool.and_eq_true, Bool.not_eq_true', Bool.not_eq_true'] at hinfinite
  rw [reading, hinfinite.1, hinfinite.2, hsign, hvalue]
  rfl

namespace Json

open Binary64

/-! ### The significand -/

/-- Digits only make a number greater. -/
theorem le_ofDigitChars (digits : List Char) (n : ℕ) : n ≤ Nat.ofDigitChars 10 digits n := by
  rw [Nat.ofDigitChars_eq_ofDigitChars_zero]
  exact Nat.le_add_right_of_le (Nat.le_mul_of_pos_left _ (Nat.pow_pos (by decide)))

/-- **Digits that all fit** are taken to the last one. -/
theorem takeSignificand_eq {digits : List Char} {n : ℕ}
    (h : Nat.ofDigitChars 10 digits n < 18446744073709551616) :
    takeSignificand n digits = (Nat.ofDigitChars 10 digits n, []) := by
  induction digits generalizing n with
  | nil => rfl
  | cons digit rest ih =>
    have hsplit : Nat.ofDigitChars 10 (digit :: rest) n =
        Nat.ofDigitChars 10 rest (Nat.ofDigitChars 10 [digit] n) := rfl
    rw [hsplit] at h ⊢
    rw [takeSignificand, if_pos (Nat.lt_of_le_of_lt (le_ofDigitChars rest _) h), ih h]

/-! ### Scaling -/

theorem reading_ofNat {n : ℕ} (hn : n < 2 ^ 53) : (ofNat n).reading = .finite false n := by
  obtain ⟨hunits, hfinite⟩ := units_ofNat hn
  refine reading_of_units hfinite (isNegative_ofMagnitude _ (nearest_lt_signBit _ _)) ?_
  rw [hunits, Nat.cast_mul]

theorem reading_powerOfTen {k : ℕ} (hk : k ≤ 22) :
    (powerOfTen k).reading = .finite false (10 ^ k) := by
  have hall : ∀ k : Fin 23, (powerOfTen k).isFinite = true ∧ (powerOfTen k).isNegative = false ∧
      (powerOfTen k).units = 10 ^ k.val * unitsPerOne := by decide +kernel
  obtain ⟨hfinite, hsign, hunits⟩ := hall ⟨k, Nat.lt_succ_of_le hk⟩
  refine reading_of_units hfinite hsign ?_
  rw [hunits, Nat.cast_mul, Nat.cast_pow, Nat.cast_ofNat]

/-- **A significand and a power of ten that are doubles** are only rounded together. -/
theorem scale?_eq {n : ℕ} {e : ℤ} (hn : n < 2 ^ 53) (hlow : -22 ≤ e) (hhigh : e ≤ 22) :
    scale? n e = some (ofValue false (n * 10 ^ e)) := by
  have hpos : (10 : ℚ) ^ e.natAbs ≠ 0 := by positivity
  have hpower := reading_powerOfTen (k := e.natAbs) (by omega)
  unfold scale?
  dsimp only
  split
  · next hneg =>
    have hsteps : (e.natAbs - 1) / greatestPower = 0 :=
      Nat.div_eq_of_lt (by rw [greatestPower]; omega)
    have hexponent : (10 : ℚ) ^ e = (10 ^ e.natAbs)⁻¹ := by
      rw [← zpow_natCast, ← zpow_neg]
      congr 1
      omega
    rw [hsteps, scaleDown, div_eq, reading_ofNat hn, hpower, hexponent, ← div_eq_mul_inv]
    simp only [Reading.quotient, if_pos hpos]
    rfl
  · next hnonneg =>
    have hexponent : (10 : ℚ) ^ e = 10 ^ e.natAbs := by
      rw [← zpow_natCast]
      congr 1
      omega
    rw [if_pos (by rw [greatestPower]; omega), mul_eq, reading_ofNat hn, hpower, hexponent]
    rfl

/-- A decimal of moderate size is rounded as its exact value. -/
theorem nearest_eq_ofValue {d : Decimal} (hlow : -400 ≤ d.leadingExponent)
    (hhigh : d.leadingExponent ≤ 400) :
    d.nearest false = ofValue false (d.digits * 10 ^ d.exponent) := by
  have hpow : 0 < 10 ^ (-d.exponent).toNat := Nat.pow_pos (by decide)
  have hvalue : (0 : ℚ) ≤ d.digits * 10 ^ d.exponent :=
    mul_nonneg (Nat.cast_nonneg _) (zpow_nonneg (by norm_num) _)
  have hsplit : (10 : ℚ) ^ d.exponent.toNat = 10 ^ d.exponent * 10 ^ (-d.exponent).toNat := by
    rw [← zpow_natCast, ← zpow_natCast, ← zpow_add₀ (by norm_num)]
    congr 1
    omega
  have hround : ofUnitRatio false (d.digits * 10 ^ d.exponent.toNat * unitsPerOne)
      (10 ^ (-d.exponent).toNat) =
      ofValue false (d.digits * 10 ^ d.exponent) := by
    refine ofUnitRatio_eq_ofValue hpow ?_ (fun _ => rfl) fun _ =>
      iff_of_false Bool.false_ne_true hvalue.not_gt
    rw [abs_of_nonneg hvalue, Nat.cast_mul, Nat.cast_mul, Nat.cast_pow, Nat.cast_pow,
      Nat.cast_ofNat, hsplit]
    -- the units in one are not to be computed
    generalize (unitsPerOne : ℚ) = one
    ring
  rw [← hround, Decimal.nearest, Decimal.nearestWord]
  split
  · next hzero =>
    have hself :=
      FloatFormat.double.nearest_units (show 0 < FloatFormat.double.infinity by decide) hpow
    rw [FloatFormat.double.units_eq_zero.2 rfl, Nat.zero_mul] at hself
    rw [hzero, Nat.zero_mul, Nat.zero_mul, ofUnitRatio, hself]
  · rw [if_neg (by omega), if_neg (by omega), ofUnitRatio, unitsPerOne_eq]
    generalize FloatFormat.double.unitScale = scale
    rfl

/-! ### Numbers -/

/-- **A number whose significand and power of ten are doubles** is read as the double nearest to
it. -/
theorem numberOfParts?_exact (negative : Bool) {whole fraction : List Char}
    {exponent : Option ℤ} {d : Decimal} (hd : Decimal.ofParts whole fraction (exponent.getD 0) = d)
    (hdigits : d.digits < 2 ^ 53) (hlow : -22 ≤ d.exponent) (hhigh : d.exponent ≤ 22)
    (hpart : fraction ≠ [] ∨ exponent ≠ none) :
    numberOfParts? negative whole fraction exponent = Number.ofBinary64? (d.nearest negative) := by
  have hsum : ofDigits (whole ++ fraction) = d.digits := congrArg Decimal.digits hd
  have hplaces : (exponent.getD 0 - fraction.length : ℤ) = d.exponent :=
    congrArg Decimal.exponent hd
  -- all digits fit, so none is dropped
  have hfits : Nat.ofDigitChars 10 fraction (ofDigits whole) = d.digits := by
    rw [← hsum, ofDigits, ofDigits, Nat.ofDigitChars_append]
  have hroom : d.digits < 18446744073709551616 := Nat.lt_trans hdigits (by decide)
  have hwhole : takeSignificand 0 whole = (ofDigits whole, []) :=
    takeSignificand_eq (Nat.lt_of_le_of_lt (le_ofDigitChars fraction _) (hfits ▸ hroom))
  have hfraction : takeSignificand (ofDigits whole) fraction = (d.digits, []) :=
    hfits ▸ takeSignificand_eq (hfits ▸ hroom)
  have hexponent : (([] : List Char).length : ℤ) - (fraction.length - ([] : List Char).length : ℕ) +
      exponent.getD 0 = d.exponent := by
    rw [List.length_nil, Nat.sub_zero]
    omega
  have hscale : scale? d.digits d.exponent = some (d.nearest false) := by
    have hcount : digitCount d.digits ≤ 16 :=
      (digitCount_le_iff (by decide)).2 (Nat.lt_trans hdigits (by decide))
    have hleading : d.leadingExponent = digitCount d.digits + d.exponent - 1 := rfl
    rw [nearest_eq_ofValue (by omega) (by omega)]
    exact scale?_eq hdigits hlow hhigh
  have hintegral : (fraction.isEmpty && exponent.isNone) = false := by
    rw [Bool.and_eq_false_iff, List.isEmpty_eq_false_iff, Option.isNone_eq_false_iff,
      Option.isSome_iff_ne_none]
    exact hpart
  unfold numberOfParts?
  simp only [hwhole, hfraction, hexponent, hscale, List.isEmpty_nil, Bool.true_and,
    hintegral, Bool.false_and, Bool.false_eq_true, if_false]
  cases negative with
  | false => rfl
  | true =>
    have hlt : Decimal.nearestWord .double d < FloatFormat.double.signBit :=
      Nat.lt_of_le_of_lt (Decimal.nearestWord_le _ d) (by decide)
    change Number.ofBinary64? (neg (ofMagnitude false _)) = _
    rw [neg, isNegative_ofMagnitude _ hlt, magnitude_ofMagnitude _ hlt]
    rfl

end Json

end Wireform
