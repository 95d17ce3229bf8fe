import Wireform.Assoc
import Wireform.Binary64

/-!
# JSON values

A number is a whole number that fits a signed or an unsigned 64-bit word, or a
finite double; the two kinds stay apart, as `1` and `1.0` do in text. Members of
an object keep the order in which their names first came.

* `Json.ofUInt64`, `Json.ofInt64`, `Json.ofBinary64`: numbers from words.
* `Json.collapse`: repeated member names collapse.
-/

namespace Wireform

/-- A JSON number. -/
inductive Number where
  /-- A whole number that fits a signed or an unsigned 64-bit word. -/
  | integer (value : Int) (fits : -9223372036854775808 ≤ value ∧ value < 18446744073709551616)
  /-- A finite double. -/
  | float (value : Binary64) (finite : value.isFinite = true)
deriving DecidableEq

/-- A JSON value. -/
inductive Json where
  | null
  | bool (value : Bool)
  | number (value : Number)
  | string (text : String)
  | array (items : List Json)
  | object (members : List (String × Json))
deriving Inhabited

namespace Number

/-- The whole number, if it fits a 64-bit word. -/
def ofInt? (value : Int) : Option Number :=
  if fits : -9223372036854775808 ≤ value ∧ value < 18446744073709551616 then
    some (.integer value fits)
  else none

/-- The double, if it is finite. -/
def ofBinary64? (value : Binary64) : Option Number :=
  if finite : value.isFinite = true then some (.float value finite) else none

/-- The value of an integer that fits a signed 64-bit word. -/
def toSigned? : Number → Option Int
  | .integer value _ => if value < 9223372036854775808 then some value else none
  | .float .. => none

/-- The value of an integer that is not negative. -/
def toUnsigned? : Number → Option Nat
  | .integer value _ => if 0 ≤ value then some value.toNat else none
  | .float .. => none

/-- The number in an unsigned word. -/
def ofUInt64 (word : UInt64) : Number :=
  .integer word.toNat (by have := word.toNat_lt; omega)

/-- The number in a signed word. -/
def ofInt64 (word : Int64) : Number :=
  .integer word.toInt (by have := word.le_toInt; have := word.toInt_lt; omega)

/-- The nearest double. -/
def toBinary64 : Number → Binary64
  | .integer value _ => .ofInt value
  | .float value _ => value

end Number

namespace Json

/-- The number in an unsigned word. -/
def ofUInt64 (word : UInt64) : Json := .number (.ofUInt64 word)

/-- The number in a signed word. -/
def ofInt64 (word : Int64) : Json := .number (.ofInt64 word)

/-- A double; one that is infinite or NaN has no number and becomes `null`. -/
def ofBinary64 (value : Binary64) : Json :=
  match Number.ofBinary64? value with
  | some n => .number n
  | none => .null

/-- The word for the kind of a value. -/
def kindName : Json → String
  | .null => "null"
  | .bool _ => "bool"
  | .number _ => "number"
  | .string _ => "string"
  | .array _ => "array"
  | .object _ => "object"

/-- Whether a value is `null`. -/
def isNull : Json → Bool
  | .null => true
  | _ => false

/-- The value of a member of an object. -/
def member? (value : Json) (name : String) : Option Json :=
  match value with
  | .object members => Assoc.get? members name
  | _ => none

/-- The element of an array at a position. -/
def item? (value : Json) (position : Nat) : Option Json :=
  match value with
  | .array items => items[position]?
  | _ => none

mutual

/-- Repeated member names collapse, at every depth: the first place, the last value. -/
def collapse : Json → Json
  | .array items => .array (collapseItems items)
  | .object members => .object (Assoc.collapse (collapseMembers members))
  | other => other

/-- Collapses each of some values. -/
def collapseItems : List Json → List Json
  | [] => []
  | item :: rest => collapse item :: collapseItems rest

/-- Collapses the value of each member. -/
def collapseMembers : List (String × Json) → List (String × Json)
  | [] => []
  | (name, value) :: rest => (name, collapse value) :: collapseMembers rest

end

end Json

end Wireform
