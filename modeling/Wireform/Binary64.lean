import Wireform.Binary64.Format

/-!
# Double-precision numbers

A double is its 64-bit word. Everything else, the sign, the magnitude and the
exact value in units of `2 ^ -1074`, is a view of that word.

* `Binary64.toUnits`: the exact value of a finite double.
* `Binary64.ofRatio`: the double nearest to an exact quotient.
-/

namespace Wireform

/-- A double-precision number, given by its word. -/
structure Binary64 where
  /-- Sign, exponent and fraction, from the high end. -/
  bits : UInt64
deriving DecidableEq

namespace Binary64

open FloatFormat (double)

instance : Inhabited Binary64 := ⟨⟨0⟩⟩

/-- The word without its sign bit. -/
def magnitude (x : Binary64) : Nat := x.bits.toNat % double.signBit

/-- Whether the sign bit is set, also of `-0` and NaN. -/
def isNegative (x : Binary64) : Bool := double.signBit ≤ x.bits.toNat

/-- Neither infinite nor NaN. -/
def isFinite (x : Binary64) : Bool := x.magnitude < double.infinity

/-- Not a number. -/
def isNaN (x : Binary64) : Bool := double.infinity < x.magnitude

/-- Positive or negative infinity. -/
def isInfinite (x : Binary64) : Bool := x.magnitude = double.infinity

/-- Positive or negative zero. -/
def isZero (x : Binary64) : Bool := x.magnitude = 0

/-- The number with a given sign and magnitude word. -/
def ofMagnitude (negative : Bool) (word : Nat) : Binary64 :=
  ⟨UInt64.ofNat (if negative then double.signBit + word else word)⟩

/-- The units of the magnitude: the absolute value times `2 ^ 1074`. -/
def units (x : Binary64) : Nat := double.units x.magnitude

/-- The exact value of a finite double, times `2 ^ 1074`. -/
def toUnits (x : Binary64) : Int := if x.isNegative then -x.units else x.units

/-- The number of units in one. -/
def unitsPerOne : Nat := Nat.pow 2 double.unitScale

/-- The double nearest to `num / den` units, with a given sign. -/
def ofUnitRatio (negative : Bool) (num den : Nat) : Binary64 :=
  ofMagnitude negative (double.nearest num den)

/-- The double nearest to `num / den`, with a given sign. -/
def ofRatio (negative : Bool) (num den : Nat) : Binary64 :=
  ofUnitRatio negative (num * unitsPerOne) den

/-- The double nearest to a natural number. -/
def ofNat (n : Nat) : Binary64 := ofRatio false n 1

/-- The double nearest to a whole number. -/
def ofInt (n : Int) : Binary64 := ofRatio (n < 0) n.natAbs 1

/-- A quiet NaN. -/
def nan : Binary64 := ofMagnitude false (double.infinity + Nat.pow 2 51)

/-- Infinity of a given sign. -/
def infinity (negative : Bool) : Binary64 := ofMagnitude negative double.infinity

/-- Zero of a given sign. -/
def zero (negative : Bool) : Binary64 := ofMagnitude negative 0

/-- Finite, without a fraction part. -/
def isWhole (x : Binary64) : Bool := x.isFinite && x.units % unitsPerOne = 0

/-- The whole part of a finite double. -/
def truncate (x : Binary64) : Int :=
  let whole : Nat := x.units / unitsPerOne
  if x.isNegative then -whole else whole

/-- The place of a number that is not NaN in numeric order; both zeros have the same. -/
def rank (x : Binary64) : Int := if x.isNegative then -x.magnitude else x.magnitude

/-- Numeric equality: zeros are equal, NaN is equal to nothing. -/
def eq (x y : Binary64) : Bool := !x.isNaN && !y.isNaN && x.rank = y.rank

/-- Numeric order; NaN is below nothing. -/
def le (x y : Binary64) : Bool := !x.isNaN && !y.isNaN && x.rank ≤ y.rank

/-- Strict numeric order; NaN is below nothing. -/
def lt (x y : Binary64) : Bool := !x.isNaN && !y.isNaN && x.rank < y.rank

end Binary64

end Wireform
