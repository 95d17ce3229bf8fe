import Wireform.Wire.Varint

/-!
# Reading bytes

A cursor holds the bytes that are left and counts those that are gone. Reading
advances it; a read that finds too few bytes leaves it where it was, except that
a variable-length integer has then used up its first byte.

* `Cursor.take`: the next bytes, all or none.
* `Cursor.uvar`: a variable-length integer.
-/

namespace Wireform

/-- A place in a byte string. -/
structure Cursor where
  /-- The bytes that are left. -/
  rest : List UInt8
  /-- The number of bytes before them. -/
  offset : Nat
deriving DecidableEq

/-- Too few bytes are left. -/
structure ShortInput where
  /-- How many bytes were asked for. -/
  needed : Nat
  /-- Where they were to start. -/
  offset : Nat
deriving DecidableEq

/-- The first `count` elements and the rest, if there are as many. -/
def splitExact? {α : Type u} : Nat → List α → Option (List α × List α)
  | 0, s => some ([], s)
  | _ + 1, [] => none
  | count + 1, x :: s => (splitExact? count s).map fun (taken, rest) => (x :: taken, rest)

theorem splitExact?_append {α : Type u} (taken rest : List α) :
    splitExact? taken.length (taken ++ rest) = some (taken, rest) := by
  induction taken with
  | nil => rfl
  | cons x taken ih => simp [splitExact?, ih]

theorem splitExact?_eq_some {α : Type u} {count : Nat} {s taken rest : List α}
    (h : splitExact? count s = some (taken, rest)) : s = taken ++ rest ∧ taken.length = count := by
  induction count generalizing s taken rest with
  | zero => simp only [splitExact?, Option.some.injEq, Prod.mk.injEq] at h; simp [← h.1, h.2]
  | succ count ih =>
    cases s with
    | nil => simp [splitExact?] at h
    | cons x s =>
      simp only [splitExact?, Option.map_eq_some_iff, Prod.mk.injEq, Prod.exists] at h
      obtain ⟨a, b, hab, rfl, rfl⟩ := h
      have := ih hab
      simp [this.1, this.2]

/-- Reading at a cursor. -/
abbrev Reading := EStateM ShortInput Cursor

namespace Cursor

/-- The start of a byte string. -/
def ofBytes (bytes : List UInt8) : Cursor := ⟨bytes, 0⟩

/-- The next `count` bytes. -/
def take (count : Nat) : Reading (List UInt8) := fun c =>
  match splitExact? count c.rest with
  | some (taken, rest) => .ok taken ⟨rest, c.offset + count⟩
  | none => .error ⟨count, c.offset⟩ c

/-- The next byte. -/
def byte : Reading UInt8 := fun c =>
  match c.rest with
  | first :: rest => .ok first ⟨rest, c.offset + 1⟩
  | [] => .error ⟨1, c.offset⟩ c

/-- An unsigned integer of `width` bytes. -/
def uint (order : ByteOrder) (width : Nat) : Reading Nat := do
  return Wire.ofNatBytes order (← take width)

/-- A signed integer of `width` bytes. -/
def int (order : ByteOrder) (width : Nat) : Reading Int := do
  return Wire.ofIntBytes order (← take width)

/-- A variable-length unsigned integer. -/
def uvar : Reading Nat := do
  let first ← byte
  let extra := Wire.leadingOnes first
  if extra = 8 then uint .big 8
  else
    let tail ← uint .big extra
    return first.toNat % Nat.pow 2 (7 - extra) * Nat.pow 256 extra + tail

end Cursor

end Wireform
