import Wireform.Proofs.Layout.Bound

/-!
# Layouts as the compiler builds them

What is known of a layout at the moment it is built, and stays true however the arena
grows: its parts are slots of the arena, its bound covers theirs, the bits and
positions of a struct's fields are counted off in order, and an array that reads
numbers directly has a number type behind its element type.

* `Arena.Builds`: all of this.
* `Arena.Builds.mono`: it survives in every later arena.
-/

namespace Wireform

/-- The bit that tells whether a field is there. -/
def FieldLayout.bit? (field : FieldLayout) : Option ℕ :=
  match field.content with
  | .value _ presence => presence
  | _ => none

/-- The index that a place is. -/
def FieldPlace.position? : FieldPlace → Option ℕ
  | .position index => some index
  | _ => none

/-- Whether a shape has a place: the items of a tuple have positions, all members have keys. -/
def StructShape.Allows (shape : StructShape) (place : FieldPlace) : Prop :=
  match shape with
  | .tuple => ∃ index, place = .position index
  | _ => ∃ name, place = .key name

/-- A constant has no place; any other field has one of the shape. -/
def FieldLayout.Placed (shape : StructShape) (field : FieldLayout) : Prop :=
  match field.content with
  | .constant .. => field.place = .detached
  | _ => shape.Allows field.place

/-- The fields of a struct have their bits and positions in order, from zero on. -/
structure StructLayout.Numbered (s : StructLayout) : Prop where
  placed : ∀ field ∈ s.fields, field.Placed s.shape
  bits : ∃ flags, s.fields.filterMap FieldLayout.bit? = List.range flags ∧
    s.bitmapBytes = bitmapLength flags
  positions : ∃ count, s.fields.filterMap (·.place.position?) = List.range count
  empty : s.shape = .empty → s.fields = [] ∧ s.bitmapBytes = 0

namespace Arena

/-- A type is a primitive, or a synonym of one that carries it. -/
inductive Carries (arena : Arena) : TypeId → Primitive → Prop where
  | primitive {id : TypeId} {type : CompiledType} {p : Primitive} (h : arena.get? id = some type)
      (hl : type.layout = .primitive p) : Carries arena id p
  | synonym {id target : TypeId} {type : CompiledType} {p : Primitive}
      (h : arena.get? id = some type) (hl : type.layout = .synonym target)
      (ht : Carries arena target p) : Carries arena id p

theorem Carries.mono {a b : Arena} (h : Extends a b) {id : TypeId} {p : Primitive}
    (hc : Carries a id p) : Carries b id p := by
  induction hc with
  | primitive hid hl => exact .primitive (h.get? _ _ hid) hl
  | synonym hid hl _ ih => exact .synonym (h.get? _ _ hid) hl ih

theorem carries_of_peelWithin? {arena : Arena} {p : Primitive} {type : CompiledType}
    (hl : type.layout = .primitive p) : ∀ (steps : ℕ) (id : TypeId),
      arena.peelWithin? steps id = some type → arena.Carries id p := by
  intro steps
  induction steps with
  | zero => intro id h; cases h
  | succ steps ih =>
    intro id h
    unfold peelWithin? at h
    split at h
    · cases h
    · next found hfound =>
      split at h
      · next target htarget =>
        exact .synonym hfound htarget (ih target h)
      · obtain rfl := Option.some.inj h
        exact .primitive hfound hl

/-- A layout with an upper bound, as the compiler builds it over an arena. -/
structure Builds (arena : Arena) (layout : Layout) (size : Size) : Prop where
  references : ∀ id ∈ layout.references, id.index < arena.size
  bound : layout.bound arena.greatest ≤ size.value
  numbered : ∀ s, layout = .struct s → s.Numbered
  numeric : ∀ a p, layout = .array a → a.numeric = some p → arena.Carries a.element p

theorem Builds.mono {a b : Arena} (h : Extends a b) {layout : Layout} {size : Size}
    (hb : Builds a layout size) : Builds b layout size where
  references := fun id hid => (hb.references id hid).trans_le h.size_le
  bound := (layout.bound_mono h.greatest_le).trans hb.bound
  numbered := hb.numbered
  numeric := fun l p hl hp => (hb.numeric l p hl hp).mono h

end Arena

end Wireform
