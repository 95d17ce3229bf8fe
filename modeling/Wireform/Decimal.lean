import Wireform.Binary64

/-!
# Decimal numbers and the doubles nearest to them

`Decimal` is a natural number times a power of ten. `Decimal.nearestWord` rounds it
once to a format, without ever building a power of ten that the result cannot need.
-/

namespace Wireform

/-- The number `digits * 10 ^ exponent`. -/
structure Decimal where
  /-- The significant digits, as one number. -/
  digits : Nat
  /-- The power of ten by which they are scaled. -/
  exponent : Int
deriving DecidableEq

/-- How many decimal digits a number is written with. -/
def digitCount (n : Nat) : Nat := (Nat.toDigits 10 n).length

namespace Decimal

/-- The exponent of the first digit: the number is at least ten to that power. -/
def leadingExponent (d : Decimal) : Int := digitCount d.digits + d.exponent - 1

/-- The magnitude word of a format that is nearest to a decimal. Beyond the extreme powers of ten
no rounding is needed: the result is infinite or zero. -/
def nearestWord (f : FloatFormat) (d : Decimal) : Nat :=
  if d.digits = 0 then 0
  else if 400 < d.leadingExponent then f.infinity
  else if d.leadingExponent < -400 then 0
  else
    f.nearest (d.digits * Nat.pow 10 d.exponent.toNat * Nat.pow 2 f.unitScale)
      (Nat.pow 10 (-d.exponent).toNat)

/-- The double nearest to a decimal, with a given sign. -/
def nearest (negative : Bool) (d : Decimal) : Binary64 :=
  .ofMagnitude negative (d.nearestWord .double)

/-- Whether a decimal reads back as the magnitude of a double. -/
def readsBackAs (d : Decimal) (x : Binary64) : Bool :=
  (d.nearest false).magnitude = x.magnitude

end Decimal

end Wireform
