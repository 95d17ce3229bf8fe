/-!
# Binary floating-point formats

A format has `fractionBits` bits of fraction and `exponentCodes` values of the
exponent field, the last of which stands for infinity and NaN. A finite magnitude
is a whole number of *units*, the unit being the least positive magnitude. So
all arithmetic is exact arithmetic on natural numbers followed by one rounding.

* `units`: the units that a magnitude word stands for.
* `nearest`: the magnitude word nearest to a quotient of units, ties to even.
-/

namespace Wireform

/-- The quotient rounded to the nearest whole number, a half going to the even one. -/
def roundHalfEven (num den : Nat) : Nat :=
  let q := num / den
  let r := num % den
  if 2 * r < den then q else if den < 2 * r then q + 1 else q + q % 2

/-- The shape of a binary floating-point format. -/
structure FloatFormat where
  /-- Width of the fraction field. -/
  fractionBits : Nat
  /-- Number of exponent codes; the last one is kept for infinity and NaN. -/
  exponentCodes : Nat
  /-- The least positive magnitude is `2 ^ -unitScale`. -/
  unitScale : Nat

namespace FloatFormat

/-- Eight bytes: 52 bits of fraction, 2048 exponent codes. -/
def double : FloatFormat := ⟨52, 2048, 1074⟩

/-- Four bytes: 23 bits of fraction, 256 exponent codes. -/
def single : FloatFormat := ⟨23, 256, 149⟩

variable (f : FloatFormat)

/-- The number of fractions. -/
def fractions : Nat := Nat.pow 2 f.fractionBits

/-- The magnitude word of infinity; greater words are NaN. -/
def infinity : Nat := (f.exponentCodes - 1) * f.fractions

/-- The sign bit as a number: one more than the greatest magnitude word. -/
def signBit : Nat := f.exponentCodes * f.fractions

/-- The units that a finite magnitude word stands for. -/
def units (word : Nat) : Nat :=
  let code := word / f.fractions
  let fraction := word % f.fractions
  if code = 0 then fraction else (f.fractions + fraction) * Nat.pow 2 (code - 1)

/-- The magnitude word nearest to `num / den` units; too great a quotient gives infinity. -/
def nearest (num den : Nat) : Nat :=
  let shift := Nat.log2 (num / den) - f.fractionBits
  min (shift * f.fractions + roundHalfEven num (den * Nat.pow 2 shift)) f.infinity

end FloatFormat

end Wireform
