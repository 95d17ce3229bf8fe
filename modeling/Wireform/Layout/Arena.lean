import Wireform.Layout

/-!
# The arena of compiled types

Slots are numbered in the order in which they were reserved. A slot is empty while
its type is being compiled.

* `Arena.maxSize`: the upper bound of a type; an empty slot has none.
* `Arena.minSize`: a lower bound of a type.
* `Arena.peel?`: the type behind synonyms.
-/

namespace Wireform

/-- The slots of compiled types. -/
structure Arena where
  slots : Array (Option CompiledType)

namespace Arena

variable (arena : Arena)

/-- No slots. -/
def empty : Arena := ⟨#[]⟩

/-- The number of slots. -/
def size : Nat := arena.slots.size

/-- The type in a slot. -/
def get? (id : TypeId) : Option CompiledType := (arena.slots[id.index]?).join

/-- The next slot, which is empty for now. -/
def reserve : TypeId × Arena := (⟨arena.size⟩, ⟨arena.slots.push none⟩)

/-- The next slot, holding a type. -/
def push (type : CompiledType) : TypeId × Arena := (⟨arena.size⟩, ⟨arena.slots.push (some type)⟩)

/-- Puts a type into a slot. -/
def fill (id : TypeId) (type : CompiledType) : Arena :=
  ⟨arena.slots.setIfInBounds id.index (some type)⟩

/-- The first slots only. -/
def truncate (count : Nat) : Arena := ⟨arena.slots.take count⟩

@[simp]
theorem size_reserve : arena.reserve.2.size = arena.size + 1 := by simp [reserve, size]

@[simp]
theorem size_push (type : CompiledType) : (arena.push type).2.size = arena.size + 1 := by
  simp [push, size]

@[simp]
theorem size_fill (id : TypeId) (type : CompiledType) : (arena.fill id type).size = arena.size := by
  simp [fill, size]

theorem lt_size_of_get? {id : TypeId} {type : CompiledType} (h : arena.get? id = some type) :
    id.index < arena.size := by
  apply Nat.lt_of_not_le
  intro hge
  rw [get?, Array.getElem?_eq_none hge] at h
  cases h

@[simp]
theorem get?_reserve (id : TypeId) : arena.reserve.2.get? id = arena.get? id := by
  simp only [reserve, get?, Array.getElem?_push]
  split
  · next h => rw [h, Array.getElem?_eq_none (Nat.le_refl _)]; rfl
  · rfl

theorem get?_push (type : CompiledType) (id : TypeId) :
    (arena.push type).2.get? id = if id.index = arena.size then some type else arena.get? id := by
  by_cases h : id.index = arena.size
  · rw [if_pos h, get?, push, h]
    exact congrArg Option.join Array.getElem?_push_size
  · rw [if_neg h, get?, push]
    have h' : ¬id.index = arena.slots.size := h
    simp [Array.getElem?_push, h', get?]

theorem get?_fill (id other : TypeId) (type : CompiledType) :
    (arena.fill id type).get? other =
      if id.index = other.index ∧ id.index < arena.size then some type else arena.get? other := by
  by_cases h : id.index = other.index
  · by_cases hlt : id.index < arena.size
    · have hlt' : id.index < arena.slots.size := hlt
      rw [if_pos ⟨h, hlt⟩]
      simp [fill, get?, ← h, hlt']
    · have hlt' : ¬id.index < arena.slots.size := hlt
      rw [if_neg fun hc => hlt hc.2]
      simp [fill, get?, ← h, hlt']
  · rw [if_neg fun hc => h hc.1]
    simp [fill, get?, h]

/-- The upper bound of a type's length. -/
def maxSize (id : TypeId) : Size :=
  match arena.get? id with
  | some type => type.maxSize
  | none => .unbounded

/-- The type behind synonyms, given how many steps may be taken. -/
def peelWithin? : Nat → TypeId → Option CompiledType
  | 0, _ => none
  | steps + 1, id =>
    match arena.get? id with
    | none => none
    | some type =>
      match type.layout with
      | .synonym target => peelWithin? steps target
      | _ => some type

/-- The type behind synonyms. -/
def peel? (id : TypeId) : Option CompiledType := arena.peelWithin? (arena.size + 1) id

/-! ### Lower bounds -/

/-- The greatest length that is told apart. -/
def lengthLimit : Nat := Size.limit - 1

/-- A sum that does not exceed the greatest length. -/
def saturatingAdd (a b : Nat) : Nat := min (a + b) lengthLimit

/-- A product that does not exceed the greatest length. -/
def saturatingMul (a b : Nat) : Nat := min (a * b) lengthLimit

/-- The slots met so far: those being worked on have no length yet. -/
abbrev Walk := StateM (List (Nat × Option Nat))

/-- The sum of the lengths of some types, on top of a given length. -/
def sumOver (length : TypeId → Walk Nat) : Nat → List TypeId → Walk Nat
  | total, [] => pure total
  | total, id :: rest => do
    let n ← length id
    sumOver length (saturatingAdd total n) rest

/-- The least of the lengths of some types, or zero if there are none. -/
def leastOver (length : TypeId → Walk Nat) (ids : List TypeId) : Walk Nat := do
  return ((← ids.mapM length).min?).getD 0

/-- The lower bound of a layout, given those of the types in it. -/
def layoutMin (length : TypeId → Walk Nat) : Layout → Walk Nat
  | .primitive p => pure p.minSize
  | .struct s => sumOver length s.bitmapBytes (s.fields.filterMap FieldLayout.mandatory?)
  | .array a =>
    if a.nullable then pure (bitmapLength a.size)
    else do return saturatingMul (← length a.element) a.size
  | .enum e => do
    let payload ← leastOver length (e.variants.map VariantLayout.payload)
    return saturatingAdd (← length e.tag) payload
  | .synonym target => length target
  | .list _ _ => pure 1
  | .padded _ size => pure size
  | .bytes count => pure count

/-- The lower bound of a type, given how deep it may be looked into. A type that is being worked on
counts as nothing. -/
def minSizeWithin : Nat → TypeId → Walk Nat
  | 0, _ => pure 0
  | depth + 1, id => do
    match arena.get? id with
    | none => return 0
    | some type =>
      match (← get).lookup id.index with
      | some known => return known.getD 0
      | none =>
        modify ((id.index, none) :: ·)
        let length ← layoutMin (minSizeWithin depth) type.layout
        modify ((id.index, some length) :: ·)
        return length

/-- A lower bound on the length of a type's values. -/
def minSize (id : TypeId) : Nat := ((arena.minSizeWithin (arena.size + 1) id).run []).1

end Arena

end Wireform
