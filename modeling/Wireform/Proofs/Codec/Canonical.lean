import Mathlib.Algebra.Group.Nat.Defs
import Mathlib.Data.List.Forall2
import Wireform.Codec.Decoding

/-!
# Canonical values

A value can be written in more ways than it is read: `2.0` for `2`, further members of an
object, members in another order. `Arena.HasForm id value form` says that `form` is how
`value` looks after it has been written and read back as a value of a type; a value is
canonical if it is its own form. The relation follows the layout of the type. It does not
mention bytes, bits or positions; only the length of a padded value has to be looked at.

The value of an enum is looked at twice, for its discriminant and for its payload, and the
payload of an object shares its members with the enum. So a payload may have members that
its own type does not declare, which is why the relation has two sides.

* `Primitive.Canonical`: values of primitives.
* `StepForm`: one level of a layout.
* `Arena.HasForm`, `Arena.Canonical`: values of a type.
-/

namespace Wireform

/-- An integer with a property. -/
def Json.IsInteger (value : Json) (inRange : Int → Prop) : Prop :=
  ∃ n fits, value = .number (.integer n fits) ∧ inRange n

namespace Primitive

/-- A value that comes back unchanged from the bytes that a primitive writes. -/
def Returns (p : Primitive) (value : Json) : Prop :=
  ∃ out : List UInt8, p.encode value #[] = .ok () out.toArray ∧
    p.decode (.ofBytes out) = .ok value ⟨[], out.length⟩

/-- The canonical values of a primitive. A text has to be so short that a word can hold its
length. -/
def Canonical (p : Primitive) (value : Json) : Prop :=
  match p with
  | .uint width _ => value.IsInteger fun n => 0 ≤ n ∧ n < width.words
  | .int width _ => value.IsInteger fun n => -(width.words / 2 : ℕ) ≤ n ∧ n < (width.words / 2 : ℕ)
  | .single _ => ∃ bits, (Binary64.ofSingleBits bits).isFinite = true ∧
      value = .ofBinary64 (.ofSingleBits bits)
  | .double _ => ∃ x : Binary64, x.isFinite = true ∧ value = .ofBinary64 x
  | .bool => ∃ b, value = .bool b
  | .uvar => value.IsInteger fun n => 0 ≤ n
  | .ivar => value.IsInteger fun n => n < 9223372036854775808
  | .string encoding => ∃ text, value = .string text ∧ (textBytes encoding text).length < 2 ^ 64
  | .json | .date => p.Returns value

/-- A value that is written as a canonical one is. -/
def HasForm (p : Primitive) (value form : Json) : Prop :=
  p.Canonical form ∧ p.encode value = p.encode form

end Primitive

namespace Codec

/-- Which values have which forms as values of a type. -/
abbrev Forms := TypeId → Json → Json → Prop

section Step

variable (forms : Forms)

/-- What a field with a place in the value gives to the form, from what is found at its place. -/
def ContentForm (content : FieldContent) (found : Option Json) (form : Json) : Prop :=
  match content with
  | .constant .. => False
  | .literal literal => form = literal
  | .value type none => ∃ value, found = some value ∧ forms type value form
  | .value type (some _) =>
    if isPresent found then ∃ value, found = some value ∧ forms type value form else form = .null

/-- A constant is read as a value that agrees with it, if that is checked. -/
def ConstantForm (type : TypeId) (constant : Json) (verify : Bool) : Prop :=
  ∃ form, forms type constant form ∧ (verify = true → form.agree constant = true)

/-- The members of an object and those of its form, in the order of the fields. -/
inductive ObjectForm (members : Assoc Json) : List FieldLayout → Assoc Json → Prop where
  | nil : ObjectForm members [] []
  | constant {type : TypeId} {constant : Json} {verify : Bool} {fields : List FieldLayout}
      {out : Assoc Json} (h : ConstantForm forms type constant verify)
      (hrest : ObjectForm members fields out) :
      ObjectForm members (⟨.detached, .constant type constant verify⟩ :: fields) out
  | member {name : String} {content : FieldContent} {form : Json} {fields : List FieldLayout}
      {out : Assoc Json} (h : ContentForm forms content (members.get? name) form)
      (hrest : ObjectForm members fields out) :
      ObjectForm members (⟨.key name, content⟩ :: fields) ((name, form) :: out)

/-- The items of a tuple and those of its form, one for each field but the constants. -/
inductive TupleForm : List FieldLayout → List Json → List Json → Prop where
  | nil : TupleForm [] [] []
  | constant {type : TypeId} {constant : Json} {verify : Bool} {fields : List FieldLayout}
      {items out : List Json} (h : ConstantForm forms type constant verify)
      (hrest : TupleForm fields items out) :
      TupleForm (⟨.detached, .constant type constant verify⟩ :: fields) items out
  | item {index : ℕ} {content : FieldContent} {item form : Json} {fields : List FieldLayout}
      {items out : List Json} (h : ContentForm forms content (some item) form)
      (hrest : TupleForm fields items out) :
      TupleForm (⟨.position index, content⟩ :: fields) (item :: items) (form :: out)

/-- Structs: members in the order of the fields and no others, items in order, or nothing at all. -/
def StructForm (s : StructLayout) (value form : Json) : Prop :=
  match s.shape with
  | .object =>
    ∃ members out, value = .object members ∧ form = .object out ∧ (Assoc.keys out).Nodup ∧
      ObjectForm forms members s.fields out
  | .tuple =>
    ∃ items out, value = .array items ∧ form = .array out ∧ TupleForm forms s.fields items out
  | .empty => form = .object []

/-- An element of an array; `null` may stand for one that is not there. -/
def ElementForm (a : ArrayLayout) (item form : Json) : Prop :=
  if (a.nullable && item.isNull) = true then form = .null else forms a.element item form

/-- Arrays have exactly as many elements as their layout says. -/
def ArrayForm (a : ArrayLayout) (value form : Json) : Prop :=
  ∃ items out, value = .array items ∧ form = .array out ∧ items.length = a.size ∧
    List.Forall₂ (ElementForm forms a) items out

/-- Lists keep to their own limit, to that of elements that may have no bytes, and to a count that
a word can hold. -/
def ListForm (minSize : TypeId → ℕ) (element : TypeId) (maxLength : Option ℕ)
    (value form : Json) : Prop :=
  ∃ items out, value = .array items ∧ form = .array out ∧
    (∀ greatest, maxLength = some greatest → items.length ≤ greatest) ∧
    (minSize element = 0 → items.length ≤ maxZeroWidthItems) ∧ items.length < 2 ^ 64 ∧
    List.Forall₂ (forms element) items out

/-- An integer from 0 to 255. -/
def ByteForm (item form : Json) : Prop :=
  ∃ byte : UInt8, form = .ofUInt64 byte.toUInt64 ∧ encodeByte item = encodeByte form

/-- A fixed number of bytes. -/
def BytesForm (count : ℕ) (value form : Json) : Prop :=
  ∃ items out, value = .array items ∧ form = .array out ∧ items.length = count ∧
    List.Forall₂ ByteForm items out

/-- Padded values fit their space. -/
def PaddedForm (encode : Encoder) (inner : TypeId) (size : ℕ) (value form : Json) : Prop :=
  forms inner value form ∧ ∃ after, encode inner value #[] = .ok () after ∧ after.size ≤ size

/-- The discriminant of a value, if it has one. -/
def discriminant? (e : EnumLayout) (value : Json) : Option Json :=
  match e.shape with
  | .object => value.member? e.target
  | .tuple => value.item? 0

/-- The discriminant stands in front of the payload, unless the payload holds it. -/
def VariantForm (e : EnumLayout) (variant : VariantLayout) (payload form : Json) : Prop :=
  match e.shape with
  | .object => ∃ members, payload = .object members ∧ form = .object
      (if variant.declaresTarget then members
        else Assoc.putAll [(e.target, variant.dispatch)] members)
  | .tuple => ∃ items, payload = .array items ∧
      form = .array (if variant.embeddedTag then items else variant.dispatch :: items)

/-- Enums: the discriminant selects a variant, the tag of the variant selects it too, and the form
consists of the discriminant and the form of the payload. -/
def EnumForm (e : EnumLayout) (value form : Json) : Prop :=
  ∃ found variant tag payload, discriminant? e value = some found ∧
    (e.variants.find? fun variant => variant.dispatch.agree found) = some variant ∧
    forms e.tag variant.tag tag ∧
    (e.variants.find? fun variant => variant.tag.agree tag) = some variant ∧
    forms variant.payload (payloadOf e.shape variant value) payload ∧
    VariantForm e variant payload form

/-- One level of a layout. -/
def StepForm (encode : Encoder) (minSize : TypeId → ℕ) (layout : Layout)
    (value form : Json) : Prop :=
  match layout with
  | .primitive p => p.HasForm value form
  | .struct s => StructForm forms s value form
  | .array a => ArrayForm forms a value form
  | .enum e => EnumForm forms e value form
  | .synonym target => forms target value form
  | .list element maxLength => ListForm forms minSize element maxLength value form
  | .padded inner size => PaddedForm forms encode inner size value form
  | .bytes count => BytesForm count value form

end Step

end Codec

namespace Arena

variable (arena : Arena)

/-- The forms of values in which types are entered no deeper than given. -/
def FormWithin : ℕ → Codec.Forms
  | 0, _, _, _ => False
  | levels + 1, id, value, form => ∃ type, arena.get? id = some type ∧
      Codec.StepForm (FormWithin levels) arena.encode arena.minSize type.layout value form

/-- The form of a value of a type. -/
def HasForm (id : TypeId) (value form : Json) : Prop :=
  ∃ levels, arena.FormWithin levels id value form

/-- A value that is its own form. -/
def Canonical (id : TypeId) (value : Json) : Prop := arena.HasForm id value value

end Arena

end Wireform
