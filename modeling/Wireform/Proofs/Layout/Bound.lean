import Mathlib.Algebra.Order.BigOperators.Group.List
import Mathlib.Data.ENat.Lattice
import Wireform.Layout.Arena

/-!
# Bounds as extended numbers

A `Size` gives up what does not fit 64 bits, so sums of sizes are awkward to reason
about. As extended natural numbers they are not: what was given up is infinite, and
every operation of `Size` stays above the exact one (`value_add`, `value_times`).

* `Layout.bound`: the upper bound of a layout, from those of the types in it.
* `Layout.least`: its lower bound, in the same way.
* `Arena.Extends.greatest_le`: filling empty slots only lowers the bounds of types.
-/

namespace Wireform

namespace Size

/-- The bound as an extended number. -/
def value : Size → ℕ∞
  | .bounded n => n
  | .unbounded => ⊤

@[simp]
theorem value_bounded (n : ℕ) : (bounded n).value = n := rfl

@[simp]
theorem value_unbounded : unbounded.value = ⊤ := rfl

@[simp]
theorem value_zero : zero.value = 0 := rfl

theorem le_value_ofNat (n : ℕ) : (n : ℕ∞) ≤ (ofNat n).value := by
  unfold ofNat
  split
  · exact le_rfl
  · exact le_top

/-- A sum that is given up is infinite, so the exact sum stays below. -/
theorem value_add (a b : Size) : a.value + b.value ≤ (a + b).value := by
  cases a with
  | unbounded => exact le_top
  | bounded m =>
    cases b with
    | unbounded => exact le_top
    | bounded n =>
      have hsum := le_value_ofNat (m + n)
      rwa [Nat.cast_add] at hsum

/-- No copies of anything take no room, whatever its bound. -/
theorem value_times (a : Size) (n : ℕ) : n * a.value ≤ (a.times n).value := by
  cases a with
  | bounded m =>
    have := le_value_ofNat (m * n)
    rwa [Nat.cast_mul, mul_comm] at this
  | unbounded =>
    cases n with
    | zero => simp
    | succ n => exact le_top

theorem value_max (a b : Size) : (a.max b).value = a.value ⊔ b.value := by
  cases a <;> cases b
  · exact (Nat.mono_cast (α := ℕ∞)).map_max
  all_goals simp [Size.max]

end Size

/-- The type that a field refers to. -/
def FieldLayout.reference? (field : FieldLayout) : Option TypeId :=
  match field.content with
  | .constant type _ _ | .value type _ => some type
  | .literal _ => none

/-- The types that a layout refers to. -/
def Layout.references : Layout → List TypeId
  | .primitive _ | .bytes _ => []
  | .struct s => s.fields.filterMap FieldLayout.reference?
  | .array a => [a.element]
  | .enum e => e.tag :: e.variants.map VariantLayout.payload
  | .synonym target => [target]
  | .list element _ => [element]
  | .padded inner _ => [inner]

namespace Arena

/-- A later arena: it has at least the same slots, and types stay where they are. -/
structure Extends (a b : Arena) : Prop where
  size_le : a.size ≤ b.size
  get? : ∀ id type, a.get? id = some type → b.get? id = some type

theorem Extends.refl (a : Arena) : Extends a a := ⟨le_rfl, fun _ _ h => h⟩

theorem Extends.trans {a b c : Arena} (hab : Extends a b) (hbc : Extends b c) : Extends a c :=
  ⟨hab.size_le.trans hbc.size_le, fun id type h => hbc.get? id type (hab.get? id type h)⟩

/-- The upper bound of a type as an extended number. -/
def greatest (arena : Arena) (id : TypeId) : ℕ∞ := (arena.maxSize id).value

/-- A slot that is filled later had no bound before. -/
theorem Extends.greatest_le {a b : Arena} (h : Extends a b) (id : TypeId) :
    b.greatest id ≤ a.greatest id := by
  unfold greatest maxSize
  cases ha : a.get? id with
  | none => exact le_top
  | some type => rw [h.get? id type ha]

end Arena

variable (upper : TypeId → ℕ∞)

/-- What a field adds to the upper bound of its struct. -/
def FieldLayout.bound (field : FieldLayout) : ℕ∞ :=
  match field.reference? with
  | some type => upper type
  | none => 0

/-- The greatest upper bound of some variants' payloads. -/
noncomputable def payloadBound : List VariantLayout → ℕ∞
  | [] => 0
  | variant :: rest => max (upper variant.payload) (payloadBound rest)

/-- The upper bound of a layout, from those of the types in it. -/
noncomputable def Layout.bound : Layout → ℕ∞
  | .primitive p => p.maxSize.value
  | .struct s => (s.fields.map (FieldLayout.bound upper)).sum + s.bitmapBytes
  | .array a => a.size * upper a.element + if a.nullable then bitmapLength a.size else 0
  | .enum e => upper e.tag + payloadBound upper e.variants
  | .synonym target => upper target
  | .list element (some count) => Wire.uvarLength count + count * upper element
  | .list _ none => ⊤
  | .padded _ size => size
  | .bytes count => count

theorem le_payloadBound {variant : VariantLayout} {variants : List VariantLayout}
    (h : variant ∈ variants) : upper variant.payload ≤ payloadBound upper variants := by
  induction variants with
  | nil => cases h
  | cons first rest ih =>
    rcases List.mem_cons.1 h with rfl | h
    · exact le_max_left _ _
    · exact (ih h).trans (le_max_right _ _)

section Mono

variable {upper} {upper' : TypeId → ℕ∞} (h : ∀ id, upper id ≤ upper' id)

include h

theorem FieldLayout.bound_mono (field : FieldLayout) :
    field.bound upper ≤ field.bound upper' := by
  unfold FieldLayout.bound
  split
  · exact h _
  · exact le_rfl

theorem sum_bound_mono (fields : List FieldLayout) :
    (fields.map (FieldLayout.bound upper)).sum ≤ (fields.map (FieldLayout.bound upper')).sum :=
  List.sum_le_sum fun field _ => field.bound_mono h

theorem payloadBound_mono (variants : List VariantLayout) :
    payloadBound upper variants ≤ payloadBound upper' variants := by
  induction variants with
  | nil => exact le_rfl
  | cons variant rest ih => exact max_le_max (h _) ih

/-- The bound of a layout grows with those of its parts. -/
theorem Layout.bound_mono (layout : Layout) : layout.bound upper ≤ layout.bound upper' := by
  cases layout with
  | primitive | padded | bytes => exact le_rfl
  | struct s => exact add_le_add (sum_bound_mono h _) le_rfl
  | array a =>
    have := h a.element
    simp only [Layout.bound]
    gcongr
  | enum e => exact add_le_add (h _) (payloadBound_mono h _)
  | synonym target => exact h _
  | list element maxLength =>
    cases maxLength with
    | none => exact le_rfl
    | some count =>
      have := h element
      simp only [Layout.bound]
      gcongr

end Mono

/-! ### Lower bounds -/

section Least

variable (lower : TypeId → ℕ∞)

/-- The least of the lengths of some variants' payloads. -/
noncomputable def leastPayload : List VariantLayout → ℕ∞
  | [] => ⊤
  | variant :: rest => min (lower variant.payload) (leastPayload rest)

/-- The lower bound of a layout, from those of the types in it. -/
noncomputable def Layout.least : Layout → ℕ∞
  | .primitive p => p.minSize
  | .struct s => s.bitmapBytes + ((s.fields.filterMap FieldLayout.mandatory?).map lower).sum
  | .array a => if a.nullable then bitmapLength a.size else a.size * lower a.element
  | .enum e => lower e.tag + leastPayload lower e.variants
  | .synonym target => lower target
  | .list _ _ => 1
  | .padded _ size => size
  | .bytes count => count

theorem leastPayload_le {variant : VariantLayout} {variants : List VariantLayout}
    (h : variant ∈ variants) : leastPayload lower variants ≤ lower variant.payload := by
  induction variants with
  | nil => cases h
  | cons first rest ih =>
    rcases List.mem_cons.1 h with rfl | h
    · exact min_le_left _ _
    · exact (min_le_right _ _).trans (ih h)

variable {lower} {lower' : TypeId → ℕ∞} (h : ∀ id, lower id ≤ lower' id)

include h

theorem leastPayload_mono (variants : List VariantLayout) :
    leastPayload lower variants ≤ leastPayload lower' variants := by
  induction variants with
  | nil => exact le_rfl
  | cons variant rest ih => exact min_le_min (h _) ih

/-- The lower bound of a layout grows with those of its parts. -/
theorem Layout.least_mono (layout : Layout) : layout.least lower ≤ layout.least lower' := by
  cases layout with
  | primitive | list | padded | bytes => exact le_rfl
  | struct s => exact add_le_add le_rfl (List.sum_le_sum fun id _ => h id)
  | array a =>
    have := h a.element
    simp only [Layout.least]
    split
    · exact le_rfl
    · gcongr
  | enum e => exact add_le_add (h _) (leastPayload_mono h _)
  | synonym target => exact h _

end Least

end Wireform
