import Mathlib.Tactic.Common
import Wireform.Wire.Integer

/-!
# Integers of a fixed width are their bytes

* `natBytes_ofNatBytes`, `intBytes_ofIntBytes`: the bytes of the number that bytes
  stand for are those bytes.
* `ofIntBytes_intBytes`: the number that the bytes of a number stand for is that
  number, if it is in range.
-/

namespace Wireform.Wire

theorem ofLittleEndian_lt (bytes : List UInt8) :
    ofLittleEndian bytes < Nat.pow 256 bytes.length := by
  induction bytes with
  | nil => exact Nat.one_pos
  | cons byte rest ih =>
    have hbyte := byte.toNat_lt
    have hpow : Nat.pow 256 (rest.length + 1) = 256 * Nat.pow 256 rest.length := Nat.pow_succ'
    rw [ofLittleEndian, List.length_cons, hpow]
    omega

theorem littleEndian_ofLittleEndian (bytes : List UInt8) :
    littleEndian bytes.length (ofLittleEndian bytes) = bytes := by
  induction bytes with
  | nil => rfl
  | cons byte rest ih =>
    have hbyte := byte.toNat_lt
    have hrest : (byte.toNat + 256 * ofLittleEndian rest) / 256 = ofLittleEndian rest := by omega
    have hfirst : UInt8.ofNat (byte.toNat + 256 * ofLittleEndian rest) = byte := by
      refine UInt8.toNat_inj.1 ?_
      rw [UInt8.toNat_ofNat']
      omega
    rw [ofLittleEndian, List.length_cons, littleEndian, hrest, hfirst, ih]

variable (order : ByteOrder)

theorem ofNatBytes_lt (bytes : List UInt8) : ofNatBytes order bytes < Nat.pow 256 bytes.length := by
  cases order with
  | little => exact ofLittleEndian_lt bytes
  | big =>
    have hlt := ofLittleEndian_lt bytes.reverse
    rwa [List.length_reverse] at hlt

theorem natBytes_ofNatBytes (bytes : List UInt8) :
    natBytes order bytes.length (ofNatBytes order bytes) = bytes := by
  cases order with
  | little => exact littleEndian_ofLittleEndian bytes
  | big =>
    have hreverse := littleEndian_ofLittleEndian bytes.reverse
    rw [List.length_reverse] at hreverse
    rw [natBytes, ofNatBytes, hreverse, List.reverse_reverse]

@[simp]
theorem length_intBytes (width : ℕ) (value : Int) : (intBytes order width value).length = width :=
  length_natBytes _ _ _

/-- Bytes are those of the signed number that they stand for. -/
theorem intBytes_ofIntBytes (bytes : List UInt8) :
    intBytes order bytes.length (ofIntBytes order bytes) = bytes := by
  have hlt : (ofNatBytes order bytes : Int) < (Nat.pow 256 bytes.length : Nat) :=
    Int.ofNat_lt.2 (ofNatBytes_lt order bytes)
  unfold intBytes ofIntBytes
  rw [Int.bmod_emod, Int.emod_eq_of_lt (Int.natCast_nonneg _) hlt, Int.toNat_natCast,
    natBytes_ofNatBytes]

/-- A signed number is the one that its bytes stand for. -/
theorem ofIntBytes_intBytes {width : ℕ} {value : Int}
    (hlow : -((Nat.pow 256 width / 2 : ℕ) : Int) ≤ value)
    (hhigh : value < ((Nat.pow 256 width / 2 : ℕ) : Int)) :
    ofIntBytes order (intBytes order width value) = value := by
  have hpos : 0 < Nat.pow 256 width := Nat.pow_pos (by decide)
  have hmod : 0 ≤ value % (Nat.pow 256 width : Nat) := Int.emod_nonneg _ (by omega)
  unfold ofIntBytes intBytes
  rw [length_natBytes, ofNatBytes_natBytes, Int.natCast_emod,
    Int.toNat_of_nonneg hmod, Int.emod_emod, Int.emod_bmod, Int.bmod_eq_of_le (by omega) (by omega)]

end Wireform.Wire
