/-!
# Hexadecimal text

* `ofHex?`: reads both cases; `hex` writes lower case.
-/

namespace Wireform.Text

/-- The digits of a byte. -/
def hexByte (byte : UInt8) : List Char :=
  [Nat.digitChar (byte.toNat / 16), Nat.digitChar (byte.toNat % 16)]

/-- Two lower-case digits for each byte. -/
def hex (bytes : List UInt8) : String := String.ofList (bytes.flatMap hexByte)

/-- The value of a digit of either case. -/
def hexDigitValue? (c : Char) : Option Nat :=
  if '0' ≤ c ∧ c ≤ '9' then some (c.toNat - 48)
  else if 'a' ≤ c ∧ c ≤ 'f' then some (c.toNat - 87)
  else if 'A' ≤ c ∧ c ≤ 'F' then some (c.toNat - 55)
  else none

/-- The bytes that pairs of digits spell. -/
def ofHexDigits? : List Char → Option (List UInt8)
  | [] => some []
  | [_] => none
  | high :: low :: rest => do
    let high ← hexDigitValue? high
    let low ← hexDigitValue? low
    return UInt8.ofNat (high * 16 + low) :: (← ofHexDigits? rest)

/-- The bytes that a text spells. -/
def ofHex? (text : String) : Option (List UInt8) := ofHexDigits? text.toList

end Wireform.Text
