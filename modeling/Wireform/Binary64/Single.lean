import Wireform.Binary64

/-!
# Single-precision words

Narrowing rounds to the nearest single, a half going to the even one, and
overflows to infinity; widening is exact.
-/

namespace Wireform.Binary64

open FloatFormat (single)

/-- How many units of a double make one unit of a single. -/
def unitsPerSingleUnit : Nat := Nat.pow 2 (FloatFormat.double.unitScale - single.unitScale)

/-- The word of the nearest single. -/
def toSingleBits (x : Binary64) : UInt32 :=
  let word :=
    if x.isNaN then single.infinity + Nat.pow 2 22
    else if x.isInfinite then single.infinity
    else single.nearest x.units unitsPerSingleUnit
  UInt32.ofNat (if x.isNegative then single.signBit + word else word)

/-- The double with the value of a single. -/
def ofSingleBits (bits : UInt32) : Binary64 :=
  let negative := single.signBit ≤ bits.toNat
  let word := bits.toNat % single.signBit
  if single.infinity < word then nan
  else if word = single.infinity then infinity negative
  else ofUnitRatio negative (single.units word * unitsPerSingleUnit) 1

end Wireform.Binary64
