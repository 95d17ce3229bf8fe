import Wireform.Decimal

/-!
# The shortest decimal that reads back

The grids of one, two, ... seventeen digits are tried in turn. On each grid only
the two neighbours of the exact value can read back if any point does, and the
nearer one is preferred.

* `shortest_readsBack`: the result reads back, for every finite magnitude that is not zero,
  as soon as its exact expansion does.
-/

namespace Wireform.Decimal

/-- Which neighbour is taken when the exact value is half-way between two. -/
inductive Halfway where
  /-- The one with an even last digit. -/
  | even
  /-- The greater one. -/
  | up
deriving DecidableEq

/-- The decimal exponent of the first digit of a finite magnitude that is not zero. -/
def firstDigitExponent (x : Binary64) : Int :=
  (digitCount (x.units * Nat.pow 10 324 / Binary64.unitsPerOne) : Int) - 325

/-- A magnitude divided by `10 ^ grid`, as an exact quotient. -/
def scaled (x : Binary64) (grid : Int) : Nat × Nat :=
  (x.units * Nat.pow 10 (-grid).toNat, Binary64.unitsPerOne * Nat.pow 10 grid.toNat)

/-- The neighbours of a magnitude among the multiples of `10 ^ grid`, the nearer one first. -/
def neighbours (halfway : Halfway) (x : Binary64) (grid : Int) : List Decimal :=
  let (num, den) := scaled x grid
  let lower := num / den
  let twice := 2 * (num % den)
  let upperFirst := den < twice ||
    (twice = den && (halfway = .up || lower % 2 = 1))
  if upperFirst then [⟨lower + 1, grid⟩, ⟨lower, grid⟩] else [⟨lower, grid⟩, ⟨lower + 1, grid⟩]

/-- The neighbour with `count` digits that reads back, the nearer one first. -/
def ofCount? (halfway : Halfway) (x : Binary64) (count : Nat) : Option Decimal :=
  (neighbours halfway x (firstDigitExponent x - count + 1)).find? (·.readsBackAs x)

/-- The exact expansion of a finite magnitude. -/
def exact (x : Binary64) : Decimal := ⟨x.units * Nat.pow 5 1074, -1074⟩

/-- Drops the zeros at the end of the digits. -/
def trim (d : Decimal) : Decimal :=
  if h : d.digits ≠ 0 ∧ d.digits % 10 = 0 then trim ⟨d.digits / 10, d.exponent + 1⟩ else d
termination_by d.digits
decreasing_by omega

/-- The fewest digits that read back as the magnitude of a finite double. -/
def shortest (halfway : Halfway) (x : Binary64) : Decimal :=
  if x.isZero then ⟨0, 0⟩
  else ((List.range' 1 17).findSome? (ofCount? halfway x)).getD (exact x)

/-- What the search finds reads back, and so does the result if the exact expansion does. -/
theorem shortest_readsBack (halfway : Halfway) {x : Binary64} (hx : x.isZero = false)
    (h : (exact x).readsBackAs x) : (shortest halfway x).readsBackAs x := by
  unfold shortest
  rw [if_neg (by simp [hx])]
  cases hf : (List.range' 1 17).findSome? (ofCount? halfway x) with
  | none => simpa using h
  | some d =>
    obtain ⟨count, -, hd⟩ := List.exists_of_findSome?_eq_some hf
    have := List.find?_some (show _ = some d from hd)
    simpa using this

end Wireform.Decimal
