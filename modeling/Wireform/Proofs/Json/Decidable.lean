import Wireform.Json

/-!
# Values can be compared

Equality of values as they are, with the order of members and the kind of numbers, is decidable, so
what a text is parsed as can be found out by computing.

* `Json.identical_iff`: identical values are equal.
-/

namespace Wireform

namespace Json

mutual

/-- Whether two values are the same in all respects. -/
def identical : Json → Json → Bool
  | .null, .null => true
  | .bool a, .bool b => decide (a = b)
  | .number a, .number b => decide (a = b)
  | .string a, .string b => decide (a = b)
  | .array as, .array bs => identicalItems as bs
  | .object as, .object bs => identicalMembers as bs
  | _, _ => false

/-- Whether the items are the same. -/
def identicalItems : List Json → List Json → Bool
  | [], [] => true
  | a :: as, b :: bs => identical a b && identicalItems as bs
  | _, _ => false

/-- Whether the members are the same, in the same order. -/
def identicalMembers : List (String × Json) → List (String × Json) → Bool
  | [], [] => true
  | (name, a) :: as, (name', b) :: bs =>
    decide (name = name') && identical a b && identicalMembers as bs
  | _, _ => false

end

mutual

theorem identical_iff : ∀ a b : Json, identical a b = true ↔ a = b
  | a, b => by
    cases a <;> cases b <;>
      simp [identical, identicalItems_iff, identicalMembers_iff]

theorem identicalItems_iff : ∀ as bs : List Json, identicalItems as bs = true ↔ as = bs
  | [], [] | [], _ :: _ | _ :: _, [] => by simp [identicalItems]
  | a :: as, b :: bs => by simp [identicalItems, identical_iff a b, identicalItems_iff as bs]

theorem identicalMembers_iff :
    ∀ as bs : List (String × Json), identicalMembers as bs = true ↔ as = bs
  | [], [] | [], _ :: _ | _ :: _, [] => by simp [identicalMembers]
  | (name, a) :: as, (name', b) :: bs => by
    simp [identicalMembers, identical_iff a b, identicalMembers_iff as bs, Prod.ext_iff]

end

instance : DecidableEq Json := fun a b => decidable_of_iff _ (identical_iff a b)

end Json

end Wireform
