/-!
# Fixed-width integers in bytes

* `ofLittleEndian_littleEndian`: reading gives back the number modulo `256 ^ width`.
* `ofNatBytes_natBytes`: the same for either byte order.
-/

namespace Wireform

/-- The order in which the bytes of a number are written. -/
inductive ByteOrder where
  /-- Most significant byte first. -/
  | big
  /-- Least significant byte first. -/
  | little
deriving DecidableEq

namespace Wire

/-- The `width` low bytes of a number, the least significant one first. -/
def littleEndian : Nat → Nat → List UInt8
  | 0, _ => []
  | width + 1, value => UInt8.ofNat value :: littleEndian width (value / 256)

/-- The number whose bytes are given, the least significant one first. -/
def ofLittleEndian : List UInt8 → Nat
  | [] => 0
  | byte :: rest => byte.toNat + 256 * ofLittleEndian rest

/-- The `width` low bytes of a number. -/
def natBytes (order : ByteOrder) (width value : Nat) : List UInt8 :=
  match order with
  | .little => littleEndian width value
  | .big => (littleEndian width value).reverse

/-- The number whose bytes are given. -/
def ofNatBytes (order : ByteOrder) (bytes : List UInt8) : Nat :=
  match order with
  | .little => ofLittleEndian bytes
  | .big => ofLittleEndian bytes.reverse

/-- The `width` low bytes of the two's complement of a whole number. -/
def intBytes (order : ByteOrder) (width : Nat) (value : Int) : List UInt8 :=
  natBytes order width (value % (Nat.pow 256 width : Nat)).toNat

/-- The whole number whose two's complement is given. -/
def ofIntBytes (order : ByteOrder) (bytes : List UInt8) : Int :=
  Int.bmod (ofNatBytes order bytes) (Nat.pow 256 bytes.length)

@[simp]
theorem length_littleEndian (width value : Nat) : (littleEndian width value).length = width := by
  induction width generalizing value with
  | zero => rfl
  | succ width ih => simp [littleEndian, ih]

@[simp]
theorem length_natBytes (order : ByteOrder) (width value : Nat) :
    (natBytes order width value).length = width := by
  cases order <;> simp [natBytes]

theorem ofLittleEndian_littleEndian (width value : Nat) :
    ofLittleEndian (littleEndian width value) = value % Nat.pow 256 width := by
  induction width generalizing value with
  | zero => simp [littleEndian, ofLittleEndian, Nat.mod_one]
  | succ width ih =>
    have hb : (UInt8.ofNat value).toNat = value % 256 := by simp
    simp only [littleEndian, ofLittleEndian, ih]
    rw [hb, show Nat.pow 256 (width + 1) = 256 * Nat.pow 256 width from Nat.pow_succ', Nat.mod_mul]

theorem ofNatBytes_natBytes (order : ByteOrder) (width value : Nat) :
    ofNatBytes order (natBytes order width value) = value % Nat.pow 256 width := by
  cases order <;> simp [ofNatBytes, natBytes, ofLittleEndian_littleEndian]

end Wire

end Wireform
