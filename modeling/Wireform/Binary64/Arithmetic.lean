import Wireform.Binary64

/-!
# Arithmetic on doubles

Each operation computes its result exactly in units of `2 ^ -1074` and rounds
once, a half going to the even neighbour.
-/

namespace Wireform.Binary64

/-- The same number with the other sign. -/
def neg (x : Binary64) : Binary64 := ofMagnitude (!x.isNegative) x.magnitude

/-- Sum. Opposite infinities have none; a sum of zero is positive unless both terms are negative. -/
def add (x y : Binary64) : Binary64 :=
  if x.isNaN || y.isNaN then nan
  else if x.isInfinite then
    if y.isInfinite && x.isNegative != y.isNegative then nan else x
  else if y.isInfinite then y
  else
    let sum := x.toUnits + y.toUnits
    if sum = 0 then zero (x.isNegative && y.isNegative)
    else ofUnitRatio (sum < 0) sum.natAbs 1

/-- Difference. -/
def sub (x y : Binary64) : Binary64 := x.add y.neg

/-- Product. Zero times infinity has none. -/
def mul (x y : Binary64) : Binary64 :=
  let negative := x.isNegative != y.isNegative
  if x.isNaN || y.isNaN then nan
  else if x.isInfinite || y.isInfinite then
    if x.isZero || y.isZero then nan else infinity negative
  else ofUnitRatio negative (x.units * y.units) unitsPerOne

/-- Quotient. A quotient by zero is infinite, except that of zero, which is none. -/
def div (x y : Binary64) : Binary64 :=
  let negative := x.isNegative != y.isNegative
  if x.isNaN || y.isNaN then nan
  else if x.isInfinite then if y.isInfinite then nan else infinity negative
  else if y.isInfinite then zero negative
  else if y.isZero then if x.isZero then nan else infinity negative
  else ofRatio negative x.units y.units

/-- Remainder of the quotient truncated toward zero; it has the sign of the dividend. -/
def rem (x y : Binary64) : Binary64 :=
  if x.isNaN || y.isNaN || x.isInfinite || y.isZero then nan
  else if y.isInfinite then x
  else ofUnitRatio x.isNegative (x.units % y.units) 1

/-- The whole number next to a finite magnitude, downward or upward; other numbers are kept. -/
def toWhole (up : Bool) (x : Binary64) : Binary64 :=
  if x.isFinite then
    let whole := x.units / unitsPerOne
    let next := if up && x.units % unitsPerOne ≠ 0 then whole + 1 else whole
    ofRatio x.isNegative next 1
  else x

/-- The greatest whole number that is not greater. -/
def floor (x : Binary64) : Binary64 := toWhole x.isNegative x

/-- The least whole number that is not less. -/
def ceil (x : Binary64) : Binary64 := toWhole (!x.isNegative) x

/-- One half. -/
def half : Binary64 := ofRatio false 1 2

/-- The nearest whole number, a half going up. -/
def round (x : Binary64) : Binary64 := (x.add half).floor

/-- The lesser of two; NaN gives way to a number. -/
def min (x y : Binary64) : Binary64 :=
  if x.isNaN then y else if y.isNaN then x else if y.lt x then y else x

/-- The greater of two; NaN gives way to a number. -/
def max (x y : Binary64) : Binary64 :=
  if x.isNaN then y else if y.isNaN then x else if x.lt y then y else x

end Wireform.Binary64
