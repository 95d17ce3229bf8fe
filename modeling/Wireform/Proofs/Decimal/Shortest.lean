import Mathlib.Tactic.Common
import Wireform.Decimal.Shortest
import Wireform.Proofs.Binary64.Rounding

/-!
# Shortest decimals read back

Rounding depends on the value of a decimal only, not on how many zeros stand at the end of its
digits. The exact expansion of a finite double rounds to the double itself, so what the search for
the fewest digits gives does, too.

* `nearestWord_shift`: zeros at the end and the exponent.
* `nearestWord_exact`: the exact expansion reads back.
* `nearestWord_shortest`: so does the shortest decimal.
-/

namespace Wireform

/-! ### Digits -/

theorem digitCount_le_iff {n k : ℕ} (hk : 0 < k) : digitCount n ≤ k ↔ n < 10 ^ k :=
  Nat.length_toDigits_le_iff (by decide) hk

theorem digitCount_mul_ten {n : ℕ} (hn : n ≠ 0) : digitCount (n * 10) = digitCount n + 1 := by
  have hle : 10 ≤ n * 10 := Nat.le_mul_of_pos_left 10 (Nat.pos_of_ne_zero hn)
  unfold digitCount
  rw [Nat.toDigits_of_base_le (by decide) hle, Nat.mul_div_cancel _ (by decide), List.length_append]
  rfl

theorem digitCount_mul_pow {n : ℕ} (hn : n ≠ 0) (k : ℕ) :
    digitCount (n * 10 ^ k) = digitCount n + k := by
  induction k with
  | zero => rw [Nat.pow_zero, Nat.mul_one, Nat.add_zero]
  | succ k ih =>
    have hne : n * 10 ^ k ≠ 0 := Nat.mul_ne_zero hn (Nat.ne_of_gt (Nat.pow_pos (by decide)))
    rw [Nat.pow_succ, ← Nat.mul_assoc, digitCount_mul_ten hne, ih, Nat.add_assoc]

namespace Decimal

variable (f : FloatFormat)

/-- **Zeros at the end of the digits** may be put into the exponent. -/
theorem nearestWord_shift (n k : ℕ) (e : Int) :
    nearestWord f ⟨n * 10 ^ k, e⟩ = nearestWord f ⟨n, e + k⟩ := by
  rcases Nat.eq_zero_or_pos n with rfl | hpos
  · rw [Nat.zero_mul]
    rfl
  have hn := Nat.ne_of_gt hpos
  have hne : n * 10 ^ k ≠ 0 := Nat.mul_ne_zero hn (Nat.ne_of_gt (Nat.pow_pos (by decide)))
  have hleading : leadingExponent ⟨n * 10 ^ k, e⟩ = leadingExponent ⟨n, e + k⟩ := by
    simp only [leadingExponent, digitCount_mul_pow hn]
    omega
  unfold nearestWord
  rw [hleading]
  dsimp only
  rw [if_neg hn, if_neg hne]
  split
  · rfl
  split
  · rfl
  -- both quotients have the same value
  have hpow : ∀ k, 0 < Nat.pow 10 k := fun k => Nat.pow_pos (by decide)
  refine f.nearest_eq (hpow _) (hpow _) ?_
  have hexponents : k + e.toNat + (-(e + k)).toNat = (e + k).toNat + (-e).toNat := by omega
  calc n * 10 ^ k * 10 ^ e.toNat * 2 ^ f.unitScale * 10 ^ (-(e + k)).toNat
      = n * 2 ^ f.unitScale * 10 ^ (k + e.toNat + (-(e + k)).toNat) := by
        rw [Nat.pow_add, Nat.pow_add]
        ac_rfl
    _ = n * 10 ^ (e + k).toNat * 2 ^ f.unitScale * 10 ^ (-e).toNat := by
        rw [hexponents, Nat.pow_add]
        ac_rfl

theorem nearestWord_trim (d : Decimal) : nearestWord f d.trim = nearestWord f d := by
  induction d using trim.induct with
  | case1 d h ih =>
    have hdigits : d.digits / 10 * 10 ^ 1 = d.digits := by
      have := h.2
      omega
    have hshift := nearestWord_shift f (d.digits / 10) 1 d.exponent
    rw [hdigits] at hshift
    rw [trim, dif_pos h, ih]
    exact hshift.symm
  | case2 d h => rw [trim, dif_neg h]

/-! ### Finite doubles -/

open FloatFormat (double)

theorem lt_digitCount {n k : ℕ} (hn : n ≠ 0) : 2 * k < digitCount (n * 5 ^ (3 * k)) := by
  rcases Nat.eq_zero_or_pos k with rfl | hk
  · exact Nat.length_toDigits_pos
  rw [← Nat.not_le, digitCount_le_iff (by omega), Nat.not_lt, Nat.pow_mul, Nat.pow_mul]
  calc (10 ^ 2) ^ k ≤ (5 ^ 3) ^ k := Nat.pow_le_pow_left (by decide) k
    _ ≤ n * (5 ^ 3) ^ k := Nat.le_mul_of_pos_left _ (Nat.pos_of_ne_zero hn)

theorem digitCount_le {n j k : ℕ} (hk : 0 < k) (hn : n < 2 ^ (3 * j + k)) :
    digitCount (n * 5 ^ k) ≤ j + k := by
  rw [digitCount_le_iff (by omega)]
  calc n * 5 ^ k < 2 ^ (3 * j + k) * 5 ^ k :=
    Nat.mul_lt_mul_of_pos_right hn (Nat.pow_pos (by decide))
    _ = (2 ^ 3) ^ j * (2 * 5) ^ k := by rw [Nat.pow_add, Nat.pow_mul, Nat.mul_pow, Nat.mul_assoc]
    _ ≤ 10 ^ j * 10 ^ k := Nat.mul_le_mul_right _ (Nat.pow_le_pow_left (by decide) j)
    _ = 10 ^ (j + k) := (Nat.pow_add 10 j k).symm

/-- A finite double is less than `2 ^ 2100` units. -/
theorem units_lt {x : Binary64} (hx : x.isFinite = true) {k : ℕ} (hk : 2100 ≤ k) :
    x.units < 2 ^ k := by
  obtain ⟨m, e, hunits, hm, he⟩ := double.units_bits (of_decide_eq_true hx)
  change m < 2 * 2 ^ 52 at hm
  change e + 1 < 2048 at he
  rw [Binary64.units, hunits]
  calc m * 2 ^ e < 2 ^ 53 * 2 ^ e := Nat.mul_lt_mul_of_pos_right hm (Nat.two_pow_pos e)
    _ = 2 ^ (53 + e) := (Nat.pow_add 2 53 e).symm
    _ ≤ 2 ^ k := Nat.pow_le_pow_right (by decide) (by omega)

theorem nearest_exact {word : ℕ} (hword : word < double.infinity) (k : ℕ) :
    double.nearest (double.units word * 5 ^ k * 10 ^ 0 * 2 ^ k) (10 ^ k) = word := by
  have hpow : 10 ^ k = 5 ^ k * 2 ^ k := Nat.mul_pow 5 2 k
  rw [Nat.pow_zero, Nat.mul_one, Nat.mul_assoc, ← hpow]
  exact double.nearest_units hword (Nat.pow_pos (by decide))

/-- **The exact expansion reads back.** -/
theorem nearestWord_exact {x : Binary64} (hx : x.isFinite = true) :
    nearestWord double (exact x) = x.magnitude := by
  have hword : x.magnitude < double.infinity := of_decide_eq_true hx
  rcases Nat.eq_zero_or_pos x.units with hzero | hpos
  · have hback := double.nearest_units hword Nat.one_pos
    change double.nearest (x.units * 1) 1 = x.magnitude at hback
    rw [hzero] at hback
    have hdigits : (exact x).digits = 0 := Nat.mul_eq_zero.2 (Or.inl hzero)
    rw [nearestWord, if_pos hdigits, ← hback]
    rfl
  · have hne := Nat.ne_of_gt hpos
    have hleading : (exact x).leadingExponent = (digitCount (exact x).digits : Int) + -1074 - 1 :=
      rfl
    have hlow : 2 * 358 < digitCount (exact x).digits := lt_digitCount hne
    have hhigh : digitCount (exact x).digits ≤ 342 + 1074 :=
      digitCount_le (by decide) (units_lt hx (by decide))
    have hdigits : (exact x).digits ≠ 0 :=
      Nat.mul_ne_zero hne (Nat.ne_of_gt (Nat.pow_pos (by decide)))
    rw [nearestWord, if_neg hdigits, if_neg (by omega), if_neg (by omega)]
    exact nearest_exact hword 1074

theorem nearestWord_le (d : Decimal) : nearestWord f d ≤ f.infinity := by
  unfold nearestWord
  split
  · exact Nat.zero_le _
  split
  · exact Nat.le_refl _
  split
  · exact Nat.zero_le _
  · exact Nat.min_le_right _ _

theorem magnitude_nearest (negative : Bool) (d : Decimal) :
    (d.nearest negative).magnitude = nearestWord double d :=
  Binary64.magnitude_ofMagnitude negative (Nat.lt_of_le_of_lt (nearestWord_le double d) (by decide))

theorem readsBackAs_iff {d : Decimal} {x : Binary64} :
    d.readsBackAs x = true ↔ nearestWord double d = x.magnitude := by
  rw [readsBackAs, magnitude_nearest, decide_eq_true_iff]

/-- **The shortest decimal reads back**, also without zeros at the end. -/
theorem nearestWord_shortest (halfway : Halfway) {x : Binary64} (hx : x.isFinite = true) :
    nearestWord double (shortest halfway x).trim = x.magnitude := by
  rw [nearestWord_trim]
  cases hzero : x.isZero with
  | true =>
    rw [shortest, if_pos hzero]
    exact (of_decide_eq_true hzero).symm
  | false =>
    exact readsBackAs_iff.1
      (shortest_readsBack halfway hzero (readsBackAs_iff.2 (nearestWord_exact hx)))

/-- Only zero has no other digits, and then there is no exponent. -/
theorem exponent_shortest (halfway : Halfway) {x : Binary64} (hx : x.isFinite = true)
    (hzero : (shortest halfway x).trim.digits = 0) : (shortest halfway x).trim.exponent = 0 := by
  have hmagnitude := nearestWord_shortest halfway hx
  rw [nearestWord, if_pos hzero] at hmagnitude
  have hshortest : shortest halfway x = ⟨0, 0⟩ := if_pos (decide_eq_true hmagnitude.symm)
  rw [hshortest, trim, dif_neg (by simp)]

/-- A double is known by its sign and its magnitude. -/
theorem ofMagnitude_magnitude (x : Binary64) :
    Binary64.ofMagnitude x.isNegative x.magnitude = x := by
  obtain ⟨bits⟩ := x
  have hbit : double.signBit = 9223372036854775808 := rfl
  have hlt := bits.toNat_lt
  unfold Binary64.ofMagnitude Binary64.isNegative Binary64.magnitude
  rw [hbit, Binary64.mk.injEq, ← UInt64.toNat_inj, UInt64.toNat_ofNat']
  dsimp only
  split
  · next hnegative =>
    have := of_decide_eq_true hnegative
    omega
  · next hpositive =>
    have := of_decide_eq_false (Bool.eq_false_iff.2 hpositive)
    omega

theorem nearest_eq_self {d : Decimal} {x : Binary64} (h : nearestWord double d = x.magnitude) :
    d.nearest x.isNegative = x := by
  rw [nearest, h, ofMagnitude_magnitude]

end Decimal

end Wireform
