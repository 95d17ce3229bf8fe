import Wireform.Codec.Failure
import Wireform.Primitive

/-!
# Layouts

What a compiled type looks like in bytes. A layout refers to other types by the
number of their slot in the arena, so that a slot can be referred to before it is
filled.

* `Layout.mandatory`: the types of which every value contains a value.
-/

namespace Wireform

/-- The number of a slot of the arena. -/
structure TypeId where
  index : Nat
deriving DecidableEq

/-- The number of a namespace. -/
structure ScopeId where
  index : Nat
deriving DecidableEq

/-- Where the value of a field is found. -/
inductive FieldPlace where
  | key (name : String)
  | position (index : Nat)
  /-- A constant has no place in the value. -/
  | detached
deriving DecidableEq

/-- The step of a path that leads to a field. -/
def FieldPlace.step : FieldPlace → PathStep
  | .key name => .key name
  | .position index => .index index
  | .detached => .constant

/-- What a field contributes. -/
inductive FieldContent where
  /-- A known value that is written through a type, and checked on reading if `verify` says so. -/
  | constant (type : TypeId) (value : Json) (verify : Bool)
  /-- A known value without bytes. -/
  | literal (value : Json)
  /-- A value; if it may be `null`, the bit that tells whether it is there. -/
  | value (type : TypeId) (presence : Option Nat)

/-- A field of a struct. -/
structure FieldLayout where
  place : FieldPlace
  content : FieldContent

/-- A struct: a bitmap of the fields that are there, then the fields in order. -/
structure StructLayout where
  shape : StructShape
  bitmapBytes : Nat
  fields : List FieldLayout

/-- An array of fixed length: a bitmap if elements may be `null`, then the elements. -/
structure ArrayLayout where
  element : TypeId
  size : Nat
  nullable : Bool
  /-- The number type of the elements, if they are numbers of fixed width. -/
  numeric : Option Primitive

/-- A variant of an enum. -/
structure VariantLayout where
  name : String
  /-- The value that is written with the tag type. -/
  tag : Json
  /-- The discriminant that selects the variant. -/
  dispatch : Json
  payload : TypeId
  /-- Whether the discriminant is the payload's own first element. -/
  embeddedTag : Bool
  /-- Whether the discriminant is a member of the payload itself. -/
  declaresTarget : Bool

/-- An enum: the tag, then the payload of the variant. -/
structure EnumLayout where
  shape : EnumShape
  tag : TypeId
  target : String
  variants : List VariantLayout

/-- The layout of a type. -/
inductive Layout where
  | primitive (type : Primitive)
  | struct (layout : StructLayout)
  | array (layout : ArrayLayout)
  | enum (layout : EnumLayout)
  /-- The layout of another type. -/
  | synonym (target : TypeId)
  /-- The number of elements, then the elements. -/
  | list (element : TypeId) (maxLength : Option Nat)
  /-- A value in a fixed number of bytes. -/
  | padded (inner : TypeId) (size : Nat)
  /-- A fixed number of bytes. -/
  | bytes (count : Nat)

/-- A compiled type. -/
structure CompiledType where
  /-- Its canonical text. -/
  ident : String
  maxSize : Size
  layout : Layout
  /-- The namespace of its local definitions. -/
  scope : Option ScopeId

/-- The literal that a struct has at a place. -/
def StructLayout.literalAt? (layout : StructLayout) (place : FieldPlace) : Option Json :=
  layout.fields.findSome? fun field =>
    match field.content with
    | .literal value => if field.place = place then some value else none
    | _ => none

/-- The type of which a field always holds a value. -/
def FieldLayout.mandatory? (field : FieldLayout) : Option TypeId :=
  match field.content with
  | .constant type _ _ => some type
  | .value type none => some type
  | _ => none

/-- The types of which every value of a layout contains a value. -/
def Layout.mandatory : Layout → List TypeId
  | .struct s => s.fields.filterMap FieldLayout.mandatory?
  | .array a => if 0 < a.size ∧ a.nullable = false then [a.element] else []
  | .synonym target => [target]
  | .padded inner _ => [inner]
  | _ => []

/-- The number of bytes of a bitmap of so many bits. -/
def bitmapLength (bits : Nat) : Nat := (bits + 7) / 8

end Wireform
