import Wireform.Codec.Encoding

/-!
# What encodings are composed of

Primitives, and the checks that a layout makes before it turns to the parts of a value, are composed
of results, failures without a path, and bytes that are appended. A property that these have, and
that two encodings one after the other have if both do, holds of all of them.

* `Composes`: such a property.
* `Composes.primitive`, `Composes.encodeByte`: what encodes a value by itself has it.
-/

namespace Wireform

/-- A property that goes with the composition of encodings. -/
structure Composes (p : {α : Type} → Encoding α → Prop) : Prop where
  pure : ∀ {α : Type} (a : α), p (Pure.pure a)
  fail : ∀ {α : Type} (cause : CodecError), p (failWith cause : Encoding α)
  emit : ∀ bytes, p (emit bytes)
  bind : ∀ {α β : Type} {x : Encoding α} {f : α → Encoding β}, p x → (∀ a, p (f a)) → p (x >>= f)

namespace Composes

variable {p : {α : Type} → Encoding α → Prop} (h : Composes p)

include h

/-! ### Primitives -/

theorem unsignedWord (type : String) (value : Json) : p (Primitive.unsignedWord type value) := by
  unfold Primitive.unsignedWord
  split
  · split
    · exact h.pure _
    · exact h.fail _
  · exact h.fail _

theorem signedWord (type : String) (value : Json) : p (Primitive.signedWord type value) := by
  unfold Primitive.signedWord
  split
  · split
    · exact h.pure _
    · exact h.fail _
  · exact h.fail _

theorem doubleOf (value : Json) : p (Primitive.doubleOf value) := by
  cases value with
  | number n => exact h.pure _
  | _ => exact h.fail _

theorem dateMillis (value : Json) : p (Primitive.dateMillis value) := by
  cases value with
  | string text =>
    simp only [Primitive.dateMillis]
    split
    · exact h.pure _
    · exact h.fail _
  | number n => exact h.signedWord "Date" (.number n)
  | _ => exact h.fail _

theorem encodeText (encoding : TextEncoding) (text : String) :
    p (Primitive.encodeText encoding text) :=
  h.bind (h.emit _) fun _ => h.emit _

/-- A primitive looks at the value, and then fails or appends bytes. -/
theorem primitive (type : Primitive) (value : Json) : p (type.encode value) := by
  cases type with
  | uint width order =>
    refine h.bind (h.unsignedWord _ value) fun word => ?_
    split
    · exact h.emit _
    · exact h.fail _
  | int width order =>
    refine h.bind (h.signedWord _ value) fun word => ?_
    dsimp only
    split
    · exact h.emit _
    · exact h.fail _
  | single order | double order => exact h.bind (h.doubleOf value) fun _ => h.emit _
  | bool =>
    cases value with
    | bool b => exact h.emit _
    | _ => exact h.fail _
  | uvar => exact h.bind (h.unsignedWord _ value) fun _ => h.emit _
  | ivar => exact h.bind (h.signedWord _ value) fun _ => h.emit _
  | string encoding =>
    cases value with
    | string text => exact h.encodeText encoding text
    | _ => exact h.fail _
  | json => exact h.encodeText .utf8 value.text
  | date => exact h.bind (h.dateMillis value) fun _ => h.emit _

theorem encodeByte (item : Json) : p (Codec.encodeByte item) := by
  refine h.bind (h.unsignedWord _ item) fun word => ?_
  split
  · exact h.emit _
  · exact h.fail _

/-! ### Checks -/

theorem arrayItems (value : Json) : p (Codec.arrayItems value) := by
  cases value with
  | array items => exact h.pure items
  | _ => exact h.fail _

theorem objectMembers (value : Json) : p (Codec.objectMembers value) := by
  cases value with
  | object members => exact h.pure members
  | _ => exact h.fail _

theorem checkShape (shape : StructShape) (value : Json) : p (Codec.checkShape shape value) := by
  cases shape with
  | object => exact h.bind (h.objectMembers value) fun _ => h.pure ()
  | tuple => exact h.bind (h.arrayItems value) fun _ => h.pure ()
  | empty => exact h.pure ()

theorem checkLength (expected : Nat) (items : List Json) :
    p (Codec.checkLength expected items) := by
  unfold Codec.checkLength
  split
  · exact h.pure ()
  · exact h.fail _

theorem checkLimit (limit : Option Nat) (count : Nat) : p (Codec.checkLimit limit count) := by
  unfold Codec.checkLimit
  split
  · split
    · exact h.fail _
    · exact h.pure ()
  · exact h.pure ()

theorem discriminant (e : EnumLayout) (value : Json) : p (Codec.discriminant e value) := by
  unfold Codec.discriminant
  cases e.shape with
  | object =>
    refine h.bind (h.objectMembers value) fun members => ?_
    split
    · exact h.pure _
    · exact h.fail _
  | tuple =>
    refine h.bind (h.arrayItems value) fun items => ?_
    split
    · exact h.pure _
    · exact h.fail _

end Composes

end Wireform
