import Wireform.Codec.Encoding

/-!
# Decoding

A value is read at a cursor through the layout of its type. Before a list or an
array is read, the least length of its elements is compared with the input that is
left, so that a count alone cannot make the result large.

* `decodeStep`: one level of a layout.
* `Arena.decodeWithin`: a type, given how many levels may be entered.
* `Arena.decode`: a type, with as many levels as an input can need.
-/

namespace Wireform

namespace Codec

/-- What decodes a value of a type. -/
abbrev Decoder := TypeId → Decoding Json

/-- The greatest count of a list whose elements may have no bytes. -/
def maxZeroWidthItems : Nat := 65536

/-- The bits of bytes, the lowest one of each first. -/
def bitsOfBytes (bytes : List UInt8) : List Bool :=
  bytes.flatMap fun byte => (List.range 8).map byte.toNat.testBit

/-- A bit of a bitmap; bits beyond its end are not set. -/
def isSet (bits : List Bool) (index : Nat) : Bool := bits[index]?.getD false

/-- So many elements of a given least length have to fit the input that is left. -/
def checkRoom (count least : Nat) : Decoding Unit := do
  let cursor ← get
  let needed := Arena.saturatingMul count least
  if cursor.rest.length < needed then failWith (.unexpectedEnd needed cursor.offset) else pure ()

/-- Reads `count` items; those read before come in reverse order. -/
def decodeItems (item : Nat → Decoding Json) : Nat → Nat → List Json → Decoding (List Json)
  | 0, _, before => pure before.reverse
  | count + 1, position, before => do
    let value ← inside (.index position) (item position)
    decodeItems item count (position + 1) (value :: before)

variable (decode : Decoder) (minSize : TypeId → Nat)

/-! ### Structs -/

/-- The value of a field; a constant has none. -/
def decodeField (bits : List Bool) (field : FieldLayout) : Decoding (Option Json) := do
  match field.content with
  | .constant type constant verify =>
    let found ← inside field.place.step (decode type)
    if verify && !found.agree constant then failWith (.constantMismatch constant found)
    return none
  | .literal value => return some value
  | .value type none => return some (← inside field.place.step (decode type))
  | .value type (some bit) =>
    if isSet bits bit then return some (← inside field.place.step (decode type))
    else return some .null

/-- The members and the items that fields have given so far; the latest item is in front. -/
structure Gathered where
  members : Assoc Json
  items : List Json

/-- One more value. -/
def Gathered.add (g : Gathered) : FieldPlace → Option Json → Gathered
  | .key name, some value => { g with members := g.members.put name value }
  | .position _, some value => { g with items := value :: g.items }
  | _, _ => g

/-- Reads fields in order. -/
def decodeFields (bits : List Bool) : Gathered → List FieldLayout → Decoding Gathered
  | g, [] => pure g
  | g, field :: rest => do
    let value ← decodeField decode bits field
    decodeFields bits (g.add field.place value) rest

/-- Reads a struct: its bitmap, then its fields. -/
def decodeStruct (s : StructLayout) : Decoding Json := do
  let bitmap ← read (Cursor.take s.bitmapBytes)
  let g ← decodeFields decode (bitsOfBytes bitmap) ⟨[], []⟩ s.fields
  match s.shape with
  | .tuple => return .array g.items.reverse
  | .object | .empty => return .object g.members

/-! ### Arrays -/

/-- What decodes the elements of an array: numbers of fixed width need no look at their type. -/
def elementDecoder (a : ArrayLayout) : Decoding Json :=
  match a.numeric with
  | some p => p.decode
  | none => decode a.element

/-- The least length of an element. -/
def elementMin (a : ArrayLayout) : Nat :=
  match a.numeric with
  | some p => p.minSize
  | none => minSize a.element

/-- The bits that tell which elements of an array are there, if elements may be `null`. -/
def decodeBits (a : ArrayLayout) : Decoding (Option (List Bool)) :=
  if a.nullable then do
    return some ((bitsOfBytes (← read (Cursor.take (bitmapLength a.size)))).take a.size)
  else pure none

/-- How many elements of an array are there. -/
def presentCount (a : ArrayLayout) : Option (List Bool) → Nat
  | some bits => bits.count true
  | none => a.size

/-- Reads the element at a position if it is there. -/
def decodeElement (a : ArrayLayout) (bits : Option (List Bool)) (position : Nat) : Decoding Json :=
  if bits.all (isSet · position) then elementDecoder decode a else pure .null

/-- Reads an array of fixed length: its bitmap if it has one, then its elements. -/
def decodeArray (a : ArrayLayout) : Decoding Json := do
  let bits ← decodeBits a
  checkRoom (presentCount a bits) (elementMin minSize a)
  return .array (← decodeItems (decodeElement decode a bits) a.size 0 [])

/-- Items that may have no bytes are limited in number, others by the room. -/
def checkItems (least count : Nat) : Decoding Unit :=
  if least = 0 then checkLimit (some maxZeroWidthItems) count else checkRoom count least

/-- Reads the number of elements, then the elements. -/
def decodeList (element : TypeId) (maxLength : Option Nat) : Decoding Json := do
  let count ← read Cursor.uvar
  checkLimit maxLength count
  checkItems (minSize element) count
  return .array (← decodeItems (fun _ => decode element) count 0 [])

/-- Reads a value from a window of fixed length; what is left of the window is skipped. -/
def decodePadded (inner : TypeId) (size : Nat) : Decoding Json := do
  let window ← read (Cursor.take size)
  fun outer =>
    match decode inner (Cursor.ofBytes window) with
    | .ok value _ => .ok value outer
    | .error stop _ => .error stop outer

/-! ### Enums -/

/-- The value of an enum, from its variant and the payload. -/
def withDiscriminant (e : EnumLayout) (variant : VariantLayout) :
    Json → Except CodecError Json
  | .object members =>
    match e.shape with
    | .object =>
      if variant.declaresTarget then .ok (.object members)
      else .ok (.object (Assoc.putAll [(e.target, variant.dispatch)] members))
    | .tuple => .error (.typeMismatch .array (.object members))
  | .array items =>
    match e.shape with
    | .tuple =>
      if variant.embeddedTag then .ok (.array items)
      else .ok (.array (variant.dispatch :: items))
    | .object => .error (.typeMismatch .object (.array items))
  | other =>
    match e.shape with
    | .object => .error (.typeMismatch .object other)
    | .tuple => .error (.typeMismatch .array other)

/-- Reads a tag, then the payload of the variant that it selects. -/
def decodeEnum (e : EnumLayout) : Decoding Json := do
  let tag ← decode e.tag
  match e.variants.find? fun variant => variant.tag.agree tag with
  | none => failWith (.unknownVariant tag)
  | some variant =>
    let payload ← inside (.variant variant.name) (decode variant.payload)
    match withDiscriminant e variant payload with
    | .ok value => return value
    | .error cause => failWith cause

/-- Reads a value through a layout. -/
def decodeStep (layout : Layout) : Decoding Json :=
  match layout with
  | .primitive p => p.decode
  | .struct s => decodeStruct decode s
  | .array a => decodeArray decode minSize a
  | .enum e => decodeEnum decode e
  | .synonym target => decode target
  | .list element maxLength => decodeList decode minSize element maxLength
  | .padded inner size => decodePadded decode inner size
  | .bytes count => do
    let bytes ← read (Cursor.take count)
    return .array (bytes.map fun byte => .ofUInt64 byte.toUInt64)

end Codec

namespace Arena

variable (arena : Arena)

/-- Reads a value of a type, given how many levels of types may be entered. -/
def decodeWithin : Nat → Codec.Decoder
  | 0, _ => throw .outOfFuel
  | levels + 1, id =>
    match arena.get? id with
    | some type => Codec.decodeStep (decodeWithin levels) arena.minSize type.layout
    | none => failWith (.unresolved id.index)

/-- More levels than decoding can enter unless it never ends: no slot is entered twice with the same
input left. -/
def decodeLevels (left : Nat) : Nat := (left + 1) * (arena.size + 1)

/-- Reads a value of a type. -/
def decode (id : TypeId) : Decoding Json := fun cursor =>
  arena.decodeWithin (arena.decodeLevels cursor.rest.length) id cursor

end Arena

end Wireform
