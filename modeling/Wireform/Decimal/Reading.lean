import Wireform.Decimal

/-!
# Reading decimals

The spelling of a number is split into its digits before the point, its digits
after the point and its exponent; `Decimal.ofParts` gives its exact value.

* `takeDigits`: the longest run of digits.
* `Binary64.ofText?`, `singleBitsOfText?`: the double or single nearest to a written number.
-/

namespace Wireform

/-- The longest run of decimal digits in front, and the rest. -/
def takeDigits (s : List Char) : List Char × List Char := s.span Char.isDigit

/-- The number that digits spell. -/
def ofDigits (digits : List Char) : Nat := Nat.ofDigitChars 10 digits 0

namespace Decimal

/-- The value of `whole.fraction` times `10 ^ exponent`. -/
def ofParts (whole fraction : List Char) (exponent : Int) : Decimal :=
  ⟨ofDigits (whole ++ fraction), exponent - fraction.length⟩

/-- An optional fraction: a point and at least one digit. -/
def takeFraction (s : List Char) : List Char × List Char :=
  match s with
  | '.' :: rest =>
    match takeDigits rest with
    | ([], _) => ([], s)
    | found => found
  | _ => ([], s)

/-- An optional exponent: `e` or `E`, an optional sign and at least one digit. -/
def takeExponent (s : List Char) : Option Int × List Char :=
  match s with
  | [] => (none, s)
  | mark :: rest =>
    if mark = 'e' ∨ mark = 'E' then
      let (negative, body) := match rest with
        | '-' :: body => (true, body)
        | '+' :: body => (false, body)
        | body => (false, body)
      match takeDigits body with
      | ([], _) => (none, s)
      | (digits, rest) =>
        (some (if negative then -(ofDigits digits : Int) else ofDigits digits), rest)
    else (none, s)

end Decimal

/-- What a written number stands for, its sign apart. -/
inductive Spelled where
  | infinite
  | undefined
  | finite (value : Decimal)

/-- The sign of a written number and what it stands for: an optional sign, then `inf`, `infinity`,
`nan` in any case, or digits with an optional point and an optional exponent. -/
def Spelled.ofText? (text : String) : Option (Bool × Spelled) :=
  let (negative, body) := match text.toList with
    | '-' :: body => (true, body)
    | '+' :: body => (false, body)
    | body => (false, body)
  let word := String.ofList (body.map Char.toLower)
  if word = "inf" ∨ word = "infinity" then some (negative, .infinite)
  else if word = "nan" then some (negative, .undefined)
  else
    let (whole, rest) := takeDigits body
    let (fraction, rest) := match rest with
      | '.' :: more => takeDigits more
      | _ => ([], rest)
    if whole.isEmpty && fraction.isEmpty then none
    else
      match Decimal.takeExponent rest with
      | (exponent, []) =>
        some (negative, .finite (Decimal.ofParts whole fraction (exponent.getD 0)))
      | _ => none

/-- The magnitude word of a format that is nearest to what is spelled. -/
def Spelled.word (f : FloatFormat) : Spelled → Nat
  | .infinite => f.infinity
  | .undefined => f.infinity + f.fractions / 2
  | .finite value => value.nearestWord f

/-- The double nearest to a written number. -/
def Binary64.ofText? (text : String) : Option Binary64 :=
  (Spelled.ofText? text).map fun (negative, spelled) =>
    .ofMagnitude negative (spelled.word .double)

/-- The word of the single nearest to a written number, rounded once. -/
def singleBitsOfText? (text : String) : Option UInt32 :=
  (Spelled.ofText? text).map fun (negative, spelled) =>
    let word := spelled.word .single
    UInt32.ofNat (if negative then FloatFormat.single.signBit + word else word)

end Wireform
