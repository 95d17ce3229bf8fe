import Wireform.Wire.Integer

/-!
# Variable-length integers

The number of leading one bits of the first byte is the number of bytes that
follow; the other bits of the first byte, after a zero bit, are the high bits of
the number. Nine bytes carry a whole 64-bit word. Signed numbers are zigzagged
first, so that small magnitudes stay short.

* `uvarLength`: the number of bytes, from one to nine.
* `unzigzag_zigzag`, `zigzag_unzigzag`: zigzag is a bijection.
-/

namespace Wireform.Wire

/-- The number of significant bits. -/
def bitLength (value : Nat) : Nat := if value = 0 then 0 else Nat.log2 value + 1

/-- The number of bytes in which a number is written. -/
def uvarLength (value : Nat) : Nat :=
  let bits := bitLength value
  if 56 < bits then 9 else (max bits 1 + 6) / 7

/-- The bytes of a number below `2 ^ 64`. -/
def uvarBytes (value : Nat) : List UInt8 :=
  let extra := uvarLength value - 1
  if extra = 8 then 0xFF :: natBytes .big 8 value
  else
    UInt8.ofNat (256 - Nat.pow 2 (8 - extra) + value / Nat.pow 256 extra) ::
      natBytes .big extra value

/-- The number of leading one bits of a byte. -/
def leadingOnes (byte : UInt8) : Nat :=
  if byte = 0xFF then 8 else 7 - Nat.log2 (255 - byte.toNat)

/-- Zero, minus one, one, minus two, ... are numbered in this order. -/
def zigzag (value : Int) : Nat := if value < 0 then 2 * value.natAbs - 1 else 2 * value.natAbs

/-- The whole number with a given zigzag number. -/
def unzigzag (code : Nat) : Int := if code % 2 = 0 then (code / 2 : Nat) else -(code / 2 : Nat) - 1

theorem unzigzag_zigzag (value : Int) : unzigzag (zigzag value) = value := by
  unfold unzigzag zigzag
  split <;> split <;> omega

theorem zigzag_unzigzag (code : Nat) : zigzag (unzigzag code) = code := by
  unfold unzigzag zigzag
  split <;> split <;> omega

end Wireform.Wire
