import Wireform.Json
import Wireform.Decimal.Style

/-!
# Compact JSON text

No spaces. Strings escape quotes, backslashes and control characters only.
Integers are written in decimal; doubles in `Decimal.jsonStyle`.
-/

namespace Wireform

/-- The text of a number. -/
def Number.chars : Number → List Char
  | .integer value _ =>
    if value < 0 then '-' :: Decimal.digitChars value.natAbs else Decimal.digitChars value.natAbs
  | .float value _ => Decimal.jsonStyle.chars value

/-- The text of a number, as a string. -/
def Number.text (n : Number) : String := String.ofList n.chars

namespace Json

/-- The hexadecimal digit of a number below sixteen. -/
def hexDigit (n : Nat) : Char := Nat.digitChar n

/-- A character inside a JSON string. -/
def escapedChar (c : Char) : List Char :=
  match c with
  | '"' => ['\\', '"']
  | '\\' => ['\\', '\\']
  | '\x08' => ['\\', 'b']
  | '\x0c' => ['\\', 'f']
  | '\n' => ['\\', 'n']
  | '\r' => ['\\', 'r']
  | '\t' => ['\\', 't']
  | c =>
    if c.toNat < 32 then ['\\', 'u', '0', '0', hexDigit (c.toNat / 16), hexDigit (c.toNat % 16)]
    else [c]

/-- A JSON string. -/
def stringChars (s : String) : List Char :=
  '"' :: s.toList.flatMap escapedChar ++ ['"']

mutual

/-- The compact text of a value. -/
def chars : Json → List Char
  | .null => "null".toList
  | .bool true => "true".toList
  | .bool false => "false".toList
  | .number n => n.chars
  | .string s => stringChars s
  | .array items => '[' :: itemsChars items ++ [']']
  | .object members => '\x7b' :: membersChars members ++ ['\x7d']

/-- Values between commas. -/
def itemsChars : List Json → List Char
  | [] => []
  | [item] => item.chars
  | item :: next :: rest => item.chars ++ ',' :: itemsChars (next :: rest)

/-- Members between commas. -/
def membersChars : List (String × Json) → List Char
  | [] => []
  | [(name, value)] => stringChars name ++ ':' :: value.chars
  | (name, value) :: next :: rest =>
    stringChars name ++ ':' :: value.chars ++ ',' :: membersChars (next :: rest)

end

/-- The compact text of a value, as a string. -/
def text (value : Json) : String := String.ofList value.chars

end Json

end Wireform
