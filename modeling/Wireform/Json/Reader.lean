import Wireform.Binary64.Arithmetic
import Wireform.Json
import Wireform.Decimal.Reading
import Wireform.Text.Hex
import Wireform.Text.Utf16

/-!
# Reading JSON text

A value is read from the front of a text and the rest is returned. Arrays and
objects nest at most `maxDepth` deep. Members with repeated names are all kept;
`Json.collapse` is a separate step.

* `readValue?`: one value from the front, by recursion on the depth that is left.
* `Json.parse?`: a whole document.
-/

namespace Wireform

/-- What is wrong with a JSON string. -/
inductive StringFault where
  /-- The text ends inside the string. -/
  | unterminated
  /-- A control character stands in the string. -/
  | controlCharacter
  /-- A backslash is followed by something that is no escape. -/
  | invalidEscape
  /-- The first half of a pair of surrogates is not followed by an escape. -/
  | unexpectedEndOfEscape
  /-- Half of a pair of surrogates stands alone. -/
  | loneSurrogate
deriving DecidableEq

/-- The wording of a fault. -/
def StringFault.message : StringFault → String
  | .unterminated => "EOF while parsing a string"
  | .controlCharacter => "control character (\\u0000-\\u001F) found while parsing a string"
  | .invalidEscape => "invalid escape"
  | .unexpectedEndOfEscape => "unexpected end of hex escape"
  | .loneSurrogate => "lone leading surrogate in hex escape"

namespace Json

/-- Arrays and objects nest at most this deep. -/
def maxDepth : Nat := 127

/-- Whether at least four bytes of UTF-8 are left. -/
def hasFourBytes (s : List Char) : Bool :=
  4 ≤ (s.take 4).foldl (fun total c => total + c.utf8Size) 0

/-- Four hexadecimal digits. -/
def readHex4 (s : List Char) : Except StringFault (Nat × List Char) :=
  if hasFourBytes s then
    match s with
    | a :: b :: c :: d :: rest =>
      match [a, b, c, d].mapM Text.hexDigitValue? with
      | some digits => .ok (digits.foldl (fun value digit => value * 16 + digit) 0, rest)
      | none => .error .invalidEscape
    | _ => .error .invalidEscape
  else .error .unterminated

/-- The second half of a pair of surrogates, and the character of the pair. -/
def readTrailing (leading : Nat) (s : List Char) : Except StringFault (Char × List Char) :=
  match s with
  | [] => .error .unterminated
  | '\\' :: 'u' :: rest => do
    let (unit, rest) ← readHex4 rest
    if Text.isTrailing unit then .ok (Char.ofNat (Text.joinSurrogates leading unit), rest)
    else .error .loneSurrogate
  | ['\\'] => .error .unterminated
  | _ => .error .unexpectedEndOfEscape

/-- What follows a backslash. -/
def readEscape (s : List Char) : Except StringFault (Char × List Char) :=
  match s with
  | [] => .error .unterminated
  | '"' :: rest => .ok ('"', rest)
  | '\\' :: rest => .ok ('\\', rest)
  | '/' :: rest => .ok ('/', rest)
  | 'b' :: rest => .ok ('\x08', rest)
  | 'f' :: rest => .ok ('\x0c', rest)
  | 'n' :: rest => .ok ('\n', rest)
  | 'r' :: rest => .ok ('\r', rest)
  | 't' :: rest => .ok ('\t', rest)
  | 'u' :: rest => do
    let (unit, rest) ← readHex4 rest
    if Text.isTrailing unit then .error .loneSurrogate
    else if Text.isLeading unit then readTrailing unit rest
    else .ok (Char.ofNat unit, rest)
  | _ => .error .invalidEscape

/-- The characters of a string up to its closing quote. The first argument bounds the number
of characters; the length of the text is enough. -/
def readStringBody : Nat → List Char → Except StringFault (List Char × List Char)
  | 0, _ => .error .unterminated
  | _ + 1, [] => .error .unterminated
  | _ + 1, '"' :: rest => .ok ([], rest)
  | bound + 1, '\\' :: rest => do
    let (c, rest) ← readEscape rest
    let (body, rest) ← readStringBody bound rest
    return (c :: body, rest)
  | bound + 1, c :: rest =>
    if c.toNat < 32 then .error .controlCharacter
    else do
      let (body, rest) ← readStringBody bound rest
      return (c :: body, rest)

/-- A string whose opening quote has been read. -/
def readString (s : List Char) : Except StringFault (String × List Char) := do
  let (body, rest) ← readStringBody s.length s
  return (String.ofList body, rest)

/-- White space of JSON. -/
def isSpace (c : Char) : Bool := c = ' ' || c = '\t' || c = '\n' || c = '\r'

/-- Drops white space in front. -/
def skipSpaces (s : List Char) : List Char := s.dropWhile isSpace

/-- The digits of a number before the point: no zero stands in front of another digit. -/
def readWhole? (s : List Char) : Option (List Char × List Char) :=
  match takeDigits s with
  | ([], _) => none
  | (['0'], rest) => some (['0'], rest)
  | ('0' :: _, _) => none
  | found => some found

/-- A fraction, if there is a point; a point without a digit is refused. -/
def readFraction? (s : List Char) : Option (List Char × List Char) :=
  match Decimal.takeFraction s with
  | ([], '.' :: _) => none
  | found => some found

/-- An exponent, if there is a mark; a mark without a digit is refused. -/
def readExponent? (s : List Char) : Option (Option Int × List Char) :=
  match Decimal.takeExponent s with
  | (none, 'e' :: _) => none
  | (none, 'E' :: _) => none
  | found => some found

/-- Appends digits to a significand as long as it fits into 64 bits; the digits from the first one
on that does not fit are left. -/
def takeSignificand (significand : Nat) : List Char → Nat × List Char
  | [] => (significand, [])
  | digit :: rest =>
    let more := Nat.ofDigitChars 10 [digit] significand
    if more < 18446744073709551616 then takeSignificand more rest else (significand, digit :: rest)

/-- A power of ten, as a double. -/
def powerOfTen (exponent : Nat) : Binary64 := Decimal.nearest false ⟨1, exponent⟩

/-- The greatest power of ten that is a finite double. -/
def greatestPower : Nat := 308

/-- Divides by a power of ten; one that is not finite is divided by in steps, of which each
rounds. -/
def scaleDown : Nat → Nat → Binary64 → Binary64
  | 0, exponent, x => x.div (powerOfTen exponent)
  | steps + 1, exponent, x =>
    if x.isZero then x
    else scaleDown steps (exponent - greatestPower) (x.div (powerOfTen greatestPower))

/-- A significand times a power of ten. Both are rounded to doubles before they are multiplied or
divided, so the result may be off the nearest double. -/
def scale? (significand : Nat) (exponent : Int) : Option Binary64 :=
  let x := Binary64.ofNat significand
  if exponent < 0 then
    some (scaleDown ((exponent.natAbs - 1) / greatestPower) exponent.natAbs x)
  else if exponent ≤ greatestPower then some (x.mul (powerOfTen exponent.natAbs))
  else if x.isZero then some x
  else none

/-- The number that is written with a sign, digits, a fraction and an exponent. It is an integer if
it has neither of the last two and fits; minus zero and all others are doubles. Digits that the
significand has no room for are dropped: those before the point count as zeros. -/
def numberOfParts? (negative : Bool) (whole fraction : List Char) (exponent : Option Int) :
    Option Number :=
  let (kept, dropped) := takeSignificand 0 whole
  let integral :=
    dropped.isEmpty && fraction.isEmpty && exponent.isNone && !(negative && kept = 0)
  match if integral then Number.ofInt? (if negative then -(kept : Int) else kept) else none with
  | some n => some n
  | none => do
    let (significand, left) := takeSignificand kept fraction
    let places : Int := dropped.length - (fraction.length - left.length : Nat)
    let magnitude ← scale? significand (places + exponent.getD 0)
    Number.ofBinary64? (if negative then magnitude.neg else magnitude)

/-- A number; one whose magnitude is too great for a double is refused. -/
def readNumber? (s : List Char) : Option (Number × List Char) := do
  let (negative, body) := match s with
    | '-' :: body => (true, body)
    | body => (false, body)
  let (whole, rest) ← readWhole? body
  let (fraction, rest) ← readFraction? rest
  let (exponent, rest) ← readExponent? rest
  let value ← numberOfParts? negative whole fraction exponent
  return (value, rest)

/-- A fixed word. -/
def readWord? (word : List Char) (value : Json) (s : List Char) : Option (Json × List Char) :=
  if word.isPrefixOf s then some (value, s.drop word.length) else none

/-- What reads one value from the front of a text. -/
abbrev ValueReader := List Char → Option (Json × List Char)

/-- The items of an array from the first one on, with the closing bracket. The bound counts
items. -/
def readItems? (item : ValueReader) : Nat → List Char → Option (List Json × List Char)
  | 0, _ => none
  | bound + 1, s => do
    let (value, rest) ← item (skipSpaces s)
    match skipSpaces rest with
    | ',' :: rest =>
      let (values, rest) ← readItems? item bound rest
      return (value :: values, rest)
    | ']' :: rest => return ([value], rest)
    | _ => none

/-- The members of an object from the first one on, with the closing brace. The bound counts
members. -/
def readMembers? (item : ValueReader) :
    Nat → List Char → Option (List (String × Json) × List Char)
  | 0, _ => none
  | bound + 1, s => do
    let '"' :: rest := skipSpaces s | none
    let (name, rest) ← (readString rest).toOption
    let ':' :: rest := skipSpaces rest | none
    let (value, rest) ← item (skipSpaces rest)
    match skipSpaces rest with
    | ',' :: rest =>
      let (members, rest) ← readMembers? item bound rest
      return ((name, value) :: members, rest)
    | '\x7d' :: rest => return ([(name, value)], rest)
    | _ => none

/-- One value whose items and members are read by `item`; none if nothing may nest. -/
def readWith? (item : Option ValueReader) (s : List Char) : Option (Json × List Char) :=
  match s with
  | '"' :: rest =>
    match readString rest with
    | .ok (text, rest) => some (.string text, rest)
    | .error _ => none
  | 'n' :: _ => readWord? "null".toList .null s
  | 't' :: _ => readWord? "true".toList (.bool true) s
  | 'f' :: _ => readWord? "false".toList (.bool false) s
  | '[' :: rest => do
    let item ← item
    match skipSpaces rest with
    | ']' :: rest => return (.array [], rest)
    | _ =>
      let (items, rest) ← readItems? item rest.length rest
      return (.array items, rest)
  | '\x7b' :: rest => do
    let item ← item
    match skipSpaces rest with
    | '\x7d' :: rest => return (.object [], rest)
    | _ =>
      let (members, rest) ← readMembers? item rest.length rest
      return (.object members, rest)
  | _ => (readNumber? s).map fun (value, rest) => (.number value, rest)

/-- One value from the front of a text, nested at most `depth` deep. -/
def readValue? : Nat → ValueReader
  | 0 => readWith? none
  | depth + 1 => readWith? (some (readValue? depth))

/-- The document in front of a text, with repeated member names kept, and the rest. -/
def readDocument? (s : List Char) : Option (Json × List Char) :=
  readValue? maxDepth (skipSpaces s)

/-- A whole document with repeated member names kept. -/
def parseRaw? (text : String) : Option Json :=
  match readDocument? text.toList with
  | some (value, rest) => if (skipSpaces rest).isEmpty then some value else none
  | none => none

/-- A whole document. -/
def parse? (text : String) : Option Json := (parseRaw? text).map collapse

end Json

end Wireform
