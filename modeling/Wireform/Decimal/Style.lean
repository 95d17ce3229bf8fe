import Wireform.Decimal.Shortest

/-!
# Writing decimals

A style says when a number is written positionally and how its exponent looks
otherwise. The digits are the fewest that read back.

* `jsonStyle`: numbers in JSON text.
* `plainStyle`: numbers in canonical text, never with an exponent.
* `lexemeStyle`: numbers in messages about lexemes.
-/

namespace Wireform.Decimal

/-- The decisions of a number format. -/
structure Style where
  /-- Whether a number whose first digit has this decimal exponent is written positionally. -/
  positional : Int → Bool
  /-- Whether a whole positional number ends in `.0`. -/
  wholePoint : Bool
  /-- Whether a positive exponent has a plus sign. -/
  exponentPlus : Bool
  /-- The choice between two shortest decimals that are equally near. -/
  halfway : Halfway

/-- JSON numbers are positional from `0.00001` up to sixteen digits before the point. -/
def jsonStyle : Style := ⟨fun e => -5 ≤ e && e ≤ 15, true, true, .even⟩

/-- Plain numbers are always positional, and whole ones have no point. -/
def plainStyle : Style := ⟨fun _ => true, false, false, .up⟩

/-- Numbers of lexemes are positional from `0.0001` up to sixteen digits before the point. -/
def lexemeStyle : Style := ⟨fun e => -4 ≤ e && e ≤ 15, true, false, .up⟩

/-- The digits of a natural number. -/
def digitChars (n : Nat) : List Char := Nat.toDigits 10 n

/-- Digits with a point after the first `places` of them; zeros fill the places that are missing. -/
def positionalChars (wholePoint : Bool) (digits : List Char) (places : Int) : List Char :=
  if places ≤ 0 then
    '0' :: '.' :: List.replicate (-places).toNat '0' ++ digits
  else
    let whole := places.toNat
    if digits.length ≤ whole then
      digits ++ List.replicate (whole - digits.length) '0' ++
        (if wholePoint then ['.', '0'] else [])
    else digits.take whole ++ '.' :: digits.drop whole

/-- One digit before the point, then the exponent. -/
def exponentChars (plus : Bool) (digits : List Char) (exponent : Int) : List Char :=
  let fraction := match digits with
    | first :: second :: rest => first :: '.' :: second :: rest
    | short => short
  let sign := if exponent < 0 then ['-'] else if plus then ['+'] else []
  fraction ++ 'e' :: sign ++ digitChars exponent.natAbs

namespace Style

/-- The text of a finite magnitude. -/
def magnitudeChars (style : Style) (x : Binary64) : List Char :=
  let d := (shortest style.halfway x).trim
  let digits := digitChars d.digits
  let first := d.leadingExponent
  if style.positional first then positionalChars style.wholePoint digits (first + 1)
  else exponentChars style.exponentPlus digits first

/-- The text of any double: `NaN`, `inf`, or a number, with a minus sign in front if it is
negative. -/
def chars (style : Style) (x : Binary64) : List Char :=
  if x.isNaN then "NaN".toList
  else
    let body := if x.isInfinite then "inf".toList else style.magnitudeChars x
    if x.isNegative then '-' :: body else body

/-- The text of any double, as a string. -/
def text (style : Style) (x : Binary64) : String := String.ofList (style.chars x)

end Style

end Wireform.Decimal
