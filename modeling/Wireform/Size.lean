/-!
# Upper bounds on encoded lengths

A bound is a number of bytes that fits 64 bits, or there is none. Sums and
products that do not fit have no bound.

* `Size.add`, `Size.times`, `Size.max`: the bounds of a sequence, a repetition and a choice.
-/

namespace Wireform

/-- An upper bound on a number of bytes. -/
inductive Size where
  /-- At most so many bytes. -/
  | bounded (bytes : Nat)
  /-- No bound is known. -/
  | unbounded
deriving DecidableEq

namespace Size

/-- Bounds and lengths are kept in 64 bits. -/
def limit : Nat := 18446744073709551616

/-- The bound of no bytes. -/
def zero : Size := .bounded 0

/-- A bound, given up if it does not fit. -/
def ofNat (bytes : Nat) : Size := if bytes < limit then .bounded bytes else .unbounded

/-- The number of bytes, if there is a bound. -/
def bytes? : Size → Option Nat
  | .bounded n => some n
  | .unbounded => none

/-- Whether there is a bound. -/
def isBounded : Size → Bool
  | .bounded _ => true
  | .unbounded => false

/-- The bound of one thing after another. -/
def add : Size → Size → Size
  | .bounded a, .bounded b => ofNat (a + b)
  | _, _ => .unbounded

/-- The bound of so many copies; no copies of anything take no room. -/
def times : Size → Nat → Size
  | .bounded a, n => ofNat (a * n)
  | .unbounded, 0 => zero
  | .unbounded, _ + 1 => .unbounded

/-- The bound of one thing or another. -/
def max : Size → Size → Size
  | .bounded a, .bounded b => .bounded (Nat.max a b)
  | _, _ => .unbounded

instance : Add Size := ⟨add⟩

/-- The text of a bound. -/
def text : Size → String
  | .bounded n => toString n
  | .unbounded => "unbounded"

end Size

end Wireform
