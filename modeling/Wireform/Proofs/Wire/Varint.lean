import Mathlib.Algebra.Group.Nat.Defs
import Mathlib.Tactic.Common
import Wireform.Proofs.Ensures
import Wireform.Proofs.Wire.Integer
import Wireform.Wire.Cursor

/-!
# Reading integers back

* `uvarLength_le_iff`: how many bytes a number needs.
* `uvar_uvarBytes`, `uint_natBytes`, `int_intBytes`: what was written is read back,
  whatever bytes follow.
-/

namespace Wireform

namespace Wire

/-! ### Lengths -/

theorem bitLength_le_iff {value k : ℕ} : bitLength value ≤ k ↔ value < 2 ^ k := by
  unfold bitLength
  split
  · next h =>
    rw [h]
    exact ⟨fun _ => Nat.two_pow_pos k, fun _ => Nat.zero_le k⟩
  · next h => exact Nat.log2_lt h

/-- Up to eight bytes carry seven bits each. -/
theorem uvarLength_le_iff {value k : ℕ} (hk : 1 ≤ k) (hk' : k ≤ 8) :
    uvarLength value ≤ k ↔ value < 2 ^ (7 * k) := by
  rw [← bitLength_le_iff]
  unfold uvarLength
  dsimp only
  split <;> omega

theorem one_le_uvarLength (value : ℕ) : 1 ≤ uvarLength value := by
  unfold uvarLength
  dsimp only
  split <;> omega

theorem uvarLength_le (value : ℕ) : uvarLength value ≤ 9 := by
  unfold uvarLength
  dsimp only
  split <;> omega

theorem uvarLength_mono {a b : ℕ} (h : a ≤ b) : uvarLength a ≤ uvarLength b := by
  have hbits : bitLength a ≤ bitLength b :=
    bitLength_le_iff.2 (Nat.lt_of_le_of_lt h (bitLength_le_iff.1 (Nat.le_refl _)))
  unfold uvarLength
  dsimp only
  split <;> split <;> omega

@[simp]
theorem length_uvarBytes (value : ℕ) : (uvarBytes value).length = uvarLength value := by
  have h := one_le_uvarLength value
  have h' := uvarLength_le value
  unfold uvarBytes
  dsimp only
  split
  · rw [List.length_cons, length_natBytes]
    omega
  · rw [List.length_cons, length_natBytes]
    omega

/-- With the sign as its lowest bit a signed word still fits a word. -/
theorem zigzag_lt {value : Int} (hlow : -9223372036854775808 ≤ value)
    (hhigh : value < 9223372036854775808) :
    zigzag value < 2 ^ 64 := by
  unfold zigzag
  split <;> omega

end Wire

namespace Cursor

open Wire

variable {rest : List UInt8} {offset : ℕ}

/-- Bytes that stand in front are taken. -/
theorem take_append (bytes rest : List UInt8) (offset : ℕ) :
    take bytes.length ⟨bytes ++ rest, offset⟩ = .ok bytes ⟨rest, offset + bytes.length⟩ := by
  unfold take
  simp only [splitExact?_append]

theorem uint_natBytes_mod (order : ByteOrder) (width value : ℕ) :
    uint order width ⟨natBytes order width value ++ rest, offset⟩ =
      .ok (value % Nat.pow 256 width) ⟨rest, offset + width⟩ := by
  have ht := take_append (natBytes order width value) rest offset
  rw [length_natBytes] at ht
  refine (bind_of_ok ht).trans ?_
  change EStateM.Result.ok (ofNatBytes order (natBytes order width value)) _ = _
  rw [ofNatBytes_natBytes]

theorem uint_natBytes (order : ByteOrder) {width value : ℕ} (h : value < Nat.pow 256 width) :
    uint order width ⟨natBytes order width value ++ rest, offset⟩ =
      .ok value ⟨rest, offset + width⟩ := by
  rw [uint_natBytes_mod, Nat.mod_eq_of_lt h]

theorem int_intBytes (order : ByteOrder) {width : ℕ} {value : Int}
    (hlow : -((Nat.pow 256 width / 2 : ℕ) : Int) ≤ value)
    (hhigh : value < ((Nat.pow 256 width / 2 : ℕ) : Int)) :
    int order width ⟨intBytes order width value ++ rest, offset⟩ =
      .ok value ⟨rest, offset + width⟩ := by
  have ht := take_append (intBytes order width value) rest offset
  rw [length_intBytes] at ht
  refine (bind_of_ok ht).trans ?_
  change EStateM.Result.ok (ofIntBytes order (intBytes order width value)) _ = _
  rw [ofIntBytes_intBytes order hlow hhigh]

/-- The first byte tells how many bytes follow, and carries the high bits. -/
theorem first_byte {extra high : ℕ} (hextra : extra ≤ 7) (hhigh : high < 2 ^ (7 - extra)) :
    leadingOnes (UInt8.ofNat (256 - Nat.pow 2 (8 - extra) + high)) = extra ∧
      (UInt8.ofNat (256 - Nat.pow 2 (8 - extra) + high)).toNat % Nat.pow 2 (7 - extra) = high := by
  -- so many ones, a zero, and the high bits
  have hsplit : Nat.pow 2 (8 - extra) = 2 * 2 ^ (7 - extra) := by
    rw [show 8 - extra = (7 - extra) + 1 by omega]
    exact Nat.pow_succ'
  have hle : 2 ^ (7 - extra) ≤ 2 ^ 7 := Nat.pow_le_pow_right (by decide) (by omega)
  have hbyte : (UInt8.ofNat (256 - Nat.pow 2 (8 - extra) + high)).toNat =
      256 - Nat.pow 2 (8 - extra) + high := by
    rw [UInt8.toNat_ofNat', Nat.mod_eq_of_lt]
    omega
  refine ⟨?_, ?_⟩
  · unfold leadingOnes
    rw [if_neg ?_, hbyte]
    · have hlog : Nat.log2 (255 - (256 - Nat.pow 2 (8 - extra) + high)) = 7 - extra := by
        rw [Nat.log2_eq_iff (by omega), Nat.pow_succ]
        omega
      omega
    · intro h
      have := congrArg UInt8.toNat h
      rw [hbyte, hsplit] at this
      change 256 - 2 * 2 ^ (7 - extra) + high = 255 at this
      omega
  · rw [hbyte]
    -- 256 is a multiple of the modulus
    obtain ⟨m, hm⟩ : 2 ^ (7 - extra) ∣ 2 ^ 8 := Nat.pow_dvd_pow 2 (by omega)
    have hrest : 256 - Nat.pow 2 (8 - extra) = 2 ^ (7 - extra) * (m - 2) := by
      rw [hsplit, Nat.mul_sub, ← hm]
      omega
    rw [hrest]
    change _ % 2 ^ (7 - extra) = high
    rw [Nat.mul_add_mod, Nat.mod_eq_of_lt hhigh]

theorem uvar_cons_nine {first : UInt8} (h : leadingOnes first = 8) (bytes : List UInt8) :
    uvar ⟨first :: bytes, offset⟩ = uint .big 8 ⟨bytes, offset + 1⟩ := by
  change (if leadingOnes first = 8 then uint .big 8 else do
    let tail ← uint .big (leadingOnes first)
    return first.toNat % Nat.pow 2 (7 - leadingOnes first) * Nat.pow 256 (leadingOnes first) + tail)
      _ = _
  rw [if_pos h]

theorem uvar_cons {first : UInt8} {extra tail : ℕ} {bytes : List UInt8} {c : Cursor}
    (h : leadingOnes first = extra) (hextra : extra ≠ 8)
    (htail : uint .big extra ⟨bytes, offset + 1⟩ = .ok tail c) :
    uvar ⟨first :: bytes, offset⟩ =
      .ok (first.toNat % Nat.pow 2 (7 - extra) * Nat.pow 256 extra + tail) c := by
  subst h
  change (if leadingOnes first = 8 then uint .big 8 else do
    let tail ← uint .big (leadingOnes first)
    return first.toNat % Nat.pow 2 (7 - leadingOnes first) * Nat.pow 256 (leadingOnes first) + tail)
      _ = _
  rw [if_neg hextra, bind_of_ok htail]
  rfl

/-- **A variable-length integer is read back.** -/
theorem uvar_uvarBytes {value : ℕ} (h : value < 2 ^ 64) :
    uvar ⟨uvarBytes value ++ rest, offset⟩ = .ok value ⟨rest, offset + uvarLength value⟩ := by
  have hone := one_le_uvarLength value
  have hnine := uvarLength_le value
  obtain ⟨extra, hlength⟩ : ∃ extra, uvarLength value = extra + 1 :=
    ⟨_, (Nat.sub_add_cancel hone).symm⟩
  unfold uvarBytes
  dsimp only
  rw [hlength, Nat.add_sub_cancel]
  -- after eight ones the whole word follows, else its high bits are in the first byte
  by_cases hextra : extra = 8
  · rw [if_pos hextra, hextra, List.cons_append, uvar_cons_nine rfl, uint_natBytes _ (by exact h)]
  · rw [if_neg hextra]
    have hvalue : value < 2 ^ (7 * (extra + 1)) :=
      (uvarLength_le_iff (by omega) (by omega)).1 (Nat.le_of_eq hlength)
    have hhigh : value / Nat.pow 256 extra < 2 ^ (7 - extra) := by
      apply Nat.div_lt_of_lt_mul
      have hpow : Nat.pow 256 extra * 2 ^ (7 - extra) = 2 ^ (7 * (extra + 1)) := by
        change (2 ^ 8) ^ extra * _ = _
        rw [← Nat.pow_mul, ← Nat.pow_add]
        congr 1
        omega
      rwa [hpow]
    obtain ⟨hones, hmod⟩ := first_byte (by omega) hhigh
    rw [List.cons_append, uvar_cons hones hextra (uint_natBytes_mod _ _ _), hmod]
    have hsum : value / Nat.pow 256 extra * Nat.pow 256 extra + value % Nat.pow 256 extra = value :=
      Nat.div_add_mod' _ _
    rw [hsum, Nat.add_assoc, Nat.add_comm 1]

end Cursor

end Wireform
