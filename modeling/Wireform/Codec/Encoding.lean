import Wireform.Layout.Arena
import Wireform.Json.Equality
import Wireform.Primitive.Codec

/-!
# Encoding

A value is appended to a buffer through the layout of its type. The types inside
are encoded by a function that is given; `Arena.encode` ties the knot.

* `encodeStep`: one level of a layout.
* `Arena.encodeWithin`: a type, given how many levels may be entered.
* `Arena.encode`: a type, with as many levels as a value can need.
-/

namespace Wireform

namespace Codec

/-- What encodes a value of a type. -/
abbrev Encoder := TypeId → Json → Encoding Unit

/-- The items of an array. -/
def arrayItems {σ : Type} : Json → EStateM (Stop CodecFailure) σ (List Json)
  | .array items => pure items
  | other => failWith (.typeMismatch .array other)

/-- The members of an object. -/
def objectMembers {σ : Type} : Json → EStateM (Stop CodecFailure) σ (List (String × Json))
  | .object members => pure members
  | other => failWith (.typeMismatch .object other)

/-- The value at a place. -/
def valueAt? (value : Json) : FieldPlace → Option Json
  | .key name => value.member? name
  | .position index => value.item? index
  | .detached => none

/-- A byte whose bits are given, the lowest one first. -/
def byteOfBits (bits : List Bool) : UInt8 :=
  UInt8.ofNat (bits.foldr (fun bit rest => bit.toNat + 2 * rest) 0)

/-- The bytes of a bitmap, eight bits in each, the lowest one first. The first argument is the
number of bytes; bits that are missing are zero. -/
def bitmapBytes : Nat → List Bool → List UInt8
  | 0, _ => []
  | count + 1, bits => byteOfBits (bits.take 8) :: bitmapBytes count (bits.drop 8)

/-- Whether a value is there and is not `null`. -/
def isPresent : Option Json → Bool
  | some value => !value.isNull
  | none => false

variable (encode : Encoder)

/-! ### Structs -/

/-- The numbers of the bits that a struct's value sets: those of the fields that may be `null` and
are not. -/
def presentBits (fields : List FieldLayout) (value : Json) : List Nat :=
  fields.filterMap fun field =>
    match field.content with
    | .value _ (some bit) => if isPresent (valueAt? value field.place) then some bit else none
    | _ => none

/-- The bits of a struct's bitmap: each field has the one with its number. -/
def presenceBits (s : StructLayout) (value : Json) : List Bool :=
  (List.range (8 * s.bitmapBytes)).map (presentBits s.fields value).contains

/-- The name of a missing field. -/
def placeName (place : FieldPlace) : String := place.step.text

/-- Appends the bytes of a field. -/
def encodeField (value : Json) (field : FieldLayout) : Encoding Unit :=
  match field.content with
  | .constant type constant _ => inside field.place.step (encode type constant)
  | .literal _ => pure ()
  | .value type presence =>
    match valueAt? value field.place, presence with
    | some found, none => inside field.place.step (encode type found)
    | some found, some _ =>
      if found.isNull then pure () else inside field.place.step (encode type found)
    | none, some _ => pure ()
    | none, none => failWith (.missingField (placeName field.place))

/-- The value of a struct has the form that its shape asks for. -/
def checkShape (shape : StructShape) (value : Json) : Encoding Unit := do
  match shape with
  | .object => let _ ← objectMembers value
  | .tuple => let _ ← arrayItems value
  | .empty => pure ()

/-- Appends a struct: its bitmap, then its fields. -/
def encodeStruct (s : StructLayout) (value : Json) : Encoding Unit := do
  checkShape s.shape value
  if s.shape = .empty then pure ()
  else
    emit (bitmapBytes s.bitmapBytes (presenceBits s value))
    s.fields.forM (encodeField encode value)

/-! ### Arrays -/

/-- Appends items one after the other, the first of them at a given position. -/
def encodeItems (item : Json → Encoding Unit) : Nat → List Json → Encoding Unit
  | _, [] => pure ()
  | position, value :: rest => do
    inside (.index position) (item value)
    encodeItems item (position + 1) rest

/-- What encodes the elements of an array: numbers of fixed width need no look at their type. -/
def elementEncoder (a : ArrayLayout) : Json → Encoding Unit :=
  match a.numeric with
  | some p => p.encode
  | none => encode a.element

/-- The bitmap of an array; it has one only if elements may be `null`. -/
def arrayBitmap (a : ArrayLayout) (items : List Json) : List UInt8 :=
  if a.nullable then bitmapBytes (bitmapLength a.size) (items.map fun item => !item.isNull) else []

/-- Appends an element of an array; one that is `null` shows in the bitmap only. -/
def encodeElement (a : ArrayLayout) (item : Json) : Encoding Unit :=
  if a.nullable && item.isNull then pure () else elementEncoder encode a item

/-- There are exactly so many items. -/
def checkLength (expected : Nat) (items : List Json) : Encoding Unit :=
  if items.length = expected then pure () else failWith (.lengthMismatch expected items.length)

/-- There are no more items than a limit says, if there is one. -/
def checkLimit {σ : Type} (limit : Option Nat) (count : Nat) : EStateM (Stop CodecFailure) σ Unit :=
  match limit with
  | some greatest => if greatest < count then failWith (.lengthMismatch greatest count) else pure ()
  | none => pure ()

/-- Appends an array of fixed length: its bitmap if it has one, then its elements. -/
def encodeArray (a : ArrayLayout) (value : Json) : Encoding Unit := do
  let items ← arrayItems value
  checkLength a.size items
  emit (arrayBitmap a items)
  encodeItems (encodeElement encode a) 0 items

/-- Appends the number of elements, then the elements. -/
def encodeList (element : TypeId) (maxLength : Option Nat) (value : Json) : Encoding Unit := do
  let items ← arrayItems value
  checkLimit maxLength items.length
  emit (Wire.uvarBytes items.length)
  encodeItems (encode element) 0 items

/-- An item of a fixed number of bytes. -/
def encodeByte (item : Json) : Encoding Unit := do
  let word ← Primitive.unsignedWord "byte" item
  if word.toNat < 256 then emit [UInt8.ofNat word.toNat]
  else failWith (.outOfRange (.ofUInt64 word) "byte")

/-- Appends a fixed number of bytes. -/
def encodeBytes (count : Nat) (value : Json) : Encoding Unit := do
  let items ← arrayItems value
  checkLength count items
  encodeItems encodeByte 0 items

/-- Appends a value and fills up with zeros; one that is too long is taken back. -/
def encodePadded (inner : TypeId) (size : Nat) (value : Json) : Encoding Unit := do
  let start := (← get).size
  encode inner value
  let used := (← get).size - start
  if size < used then
    modify fun buffer => buffer.take start
    failWith (.paddingOverflow used size)
  else emit (List.replicate (size - used) 0)

/-! ### Enums -/

/-- The discriminant of a value. -/
def discriminant (e : EnumLayout) (value : Json) : Encoding Json := do
  match e.shape with
  | .object =>
    match Assoc.get? (← objectMembers value) e.target with
    | some found => return found
    | none => failWith (.missingField e.target)
  | .tuple =>
    match ← arrayItems value with
    | first :: _ => return first
    | [] => failWith (.missingField "0")

/-- The part of a value that a variant's payload encodes. -/
def payloadOf (shape : EnumShape) (variant : VariantLayout) (value : Json) : Json :=
  match shape, value with
  | .tuple, .array (first :: rest) =>
    if variant.embeddedTag then .array (first :: rest) else .array rest
  | _, value => value

/-- Appends the tag of the variant that the discriminant selects, then the payload. -/
def encodeEnum (e : EnumLayout) (value : Json) : Encoding Unit := do
  let found ← discriminant e value
  match e.variants.find? fun variant => variant.dispatch.agree found with
  | none => failWith (.unknownVariant found)
  | some variant =>
    encode e.tag variant.tag
    inside (.variant variant.name) (encode variant.payload (payloadOf e.shape variant value))

/-- Appends a value through a layout. -/
def encodeStep (layout : Layout) (value : Json) : Encoding Unit :=
  match layout with
  | .primitive p => p.encode value
  | .struct s => encodeStruct encode s value
  | .array a => encodeArray encode a value
  | .enum e => encodeEnum encode e value
  | .synonym target => encode target value
  | .list element maxLength => encodeList encode element maxLength value
  | .padded inner size => encodePadded encode inner size value
  | .bytes count => encodeBytes count value

end Codec

namespace Json

mutual

/-- How many values can be met inside a value, the ends of its arrays counted as values too. -/
def weight : Json → Nat
  | .array items => 1 + weightItems items
  | .object members => 1 + weightMembers members
  | _ => 1

/-- The weight of some items: each counts itself and the end that starts there. -/
def weightItems : List Json → Nat
  | [] => 0
  | item :: rest => 1 + weight item + weightItems rest

/-- The weight of some members. -/
def weightMembers : List (String × Json) → Nat
  | [] => 0
  | (_, value) :: rest => weight value + weightMembers rest

end

end Json

namespace Layout

/-- The constants and tags that encoding a value of a layout can turn to. -/
def constants : Layout → List Json
  | .struct s => s.fields.filterMap fun field =>
    match field.content with
    | .constant _ value _ => some value
    | _ => none
  | .enum e => e.variants.map VariantLayout.tag
  | _ => []

end Layout

namespace Arena

variable (arena : Arena)

/-- Appends a value of a type, given how many levels of types may be entered. -/
def encodeWithin : Nat → Codec.Encoder
  | 0, _, _ => throw .outOfFuel
  | levels + 1, id, value =>
    match arena.get? id with
    | some type => Codec.encodeStep (encodeWithin levels) type.layout value
    | none => failWith (.unresolved id.index)

/-- The weight of all constants and tags. -/
def constantWeight : Nat :=
  arena.slots.foldl (fun total slot =>
    match slot with
    | some type => type.layout.constants.foldl (fun total value => total + value.weight) total
    | none => total) 0

/-- More levels than encoding a value can enter unless it never ends: no slot is entered twice with
the same value. -/
def encodeLevels (value : Json) : Nat := arena.size * (value.weight + arena.constantWeight) + 1

/-- Appends a value of a type. -/
def encode (id : TypeId) (value : Json) : Encoding Unit :=
  arena.encodeWithin (arena.encodeLevels value) id value

end Arena

end Wireform
