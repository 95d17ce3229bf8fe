import Wireform.Json

/-!
# Equality of JSON values

`same` compares by structure: members in any order, doubles by value, and an
integer never equals a double. `agree` compares numbers by value first.
-/

namespace Wireform

/-- Structural equality of numbers: within one kind, by value. -/
def Number.same : Number → Number → Bool
  | .integer a _, .integer b _ => a = b
  | .float a _, .float b _ => a.eq b
  | _, _ => false

/-- Equality across kinds: as signed words if both are, else as unsigned ones, else as doubles. -/
def Number.agree (a b : Number) : Bool :=
  match a.toSigned?, b.toSigned? with
  | some x, some y => x = y
  | _, _ =>
    match a.toUnsigned?, b.toUnsigned? with
    | some x, some y => x = y
    | _, _ => a.toBinary64.eq b.toBinary64

namespace Json

mutual

/-- Structural equality; the order of members does not count. -/
def same : Json → Json → Bool
  | .null, .null => true
  | .bool a, .bool b => a = b
  | .number a, .number b => a.same b
  | .string a, .string b => a = b
  | .array a, .array b => sameItems a b
  | .object a, .object b => a.length = b.length && sameMembers a b
  | _, _ => false

/-- Equality item by item. -/
def sameItems : List Json → List Json → Bool
  | [], [] => true
  | a :: as, b :: bs => same a b && sameItems as bs
  | _, _ => false

/-- Whether every member has an equal value under its name in another object. -/
def sameMembers : List (String × Json) → List (String × Json) → Bool
  | [], _ => true
  | (name, value) :: rest, others =>
    (match Assoc.get? others name with
      | some other => same value other
      | none => false) && sameMembers rest others

end

/-- Equality in which `2` and `2.0` agree, at the top only. -/
def agree : Json → Json → Bool
  | .number a, .number b => a.agree b
  | a, b => same a b

end Json

end Wireform
