import Wireform.Json

/-!
# Definitions of wire types

A schema gives each of its names a definition: a struct, an enum, a synonym of a
type reference, or a template with parameters. Structs and enums may carry
definitions of their own, which only they see. Sizes and template arguments are
expressions in postfix order.
-/

namespace Wireform

/-- The JSON form of a struct's values. -/
inductive StructShape where
  /-- An object, each field under its key. -/
  | object
  /-- An array, each field at its position. -/
  | tuple
  /-- Anything; it has no bytes and reads back as an empty object. -/
  | empty
deriving DecidableEq

/-- The JSON form of an enum's values. -/
inductive EnumShape where
  /-- An object with the discriminant under a key. -/
  | object
  /-- An array with the discriminant in front. -/
  | tuple
deriving DecidableEq

/-- One entry of an enum: the tag on the wire and the name of the variant's body. -/
structure EnumEntry where
  /-- The value that is written with the tag type. -/
  tag : Json
  /-- The name of the body. -/
  variant : String

mutual

/-- A reference to a type, which may admit `null`. -/
structure TypeRef where
  kind : TypeKind
  nullable : Bool

/-- What a reference refers to. An argument list that is empty differs from none. -/
inductive TypeKind where
  /-- A name, with arguments if it is a template's. -/
  | named (name : String) (arguments : Option (List (List Token)))
  /-- A parameter of the enclosing template. -/
  | parameter (name : String)
  /-- A struct without a name. -/
  | inline (body : StructBody)
  /-- An array of fixed length. -/
  | array (element : TypeRef) (size : List Token)
  /-- Names that are looked up one inside the other. -/
  | path (segments : List PathSegment)

/-- One name of a path, with arguments if it is a template's. -/
structure PathSegment where
  name : String
  arguments : Option (List (List Token))

/-- One token of an expression in postfix order. -/
inductive Token where
  | number (value : Binary64)
  | string (text : String)
  | type (reference : TypeRef)
  | parameter (name : String)
  | operator (name : String)

/-- A struct: its fields and the definitions that only they see. -/
structure StructBody where
  shape : StructShape
  fields : List Field
  locals : List (String × Definition)

/-- A field of a struct. -/
inductive Field where
  /-- A value that is read and written through its type. -/
  | typed (key : Option String) (type : TypeRef)
  /-- A known value without bytes. -/
  | literal (key : Option String) (value : Json)
  /-- A known value that is written through a type and belongs to no key. -/
  | constant (type : TypeRef) (value : Json)

/-- An enum: its entries and the bodies that only they see. -/
structure EnumBody where
  shape : EnumShape
  /-- The type of the tag, unless it is the default one. -/
  tagType : Option TypeRef
  /-- The key of the discriminant, unless it is the default one. -/
  target : Option String
  entries : List EnumEntry
  locals : List (String × Definition)

/-- What a name of a schema stands for. -/
inductive Definition where
  | struct (body : StructBody)
  | enum (body : EnumBody)
  /-- Another name for a type. -/
  | synonym (target : TypeRef)
  /-- A definition with parameters. -/
  | template (parameters : List String) (body : Definition)

end

/-- Tokens in postfix order. -/
abbrev Expr := List Token

namespace TypeRef

/-- A reference that does not admit `null`. -/
def ofKind (kind : TypeKind) : TypeRef := ⟨kind, false⟩

/-- A name without arguments. -/
def named (name : String) : TypeRef := ofKind (.named name none)

/-- A template applied to arguments. -/
def generic (name : String) (arguments : List Expr) : TypeRef :=
  ofKind (.named name (some arguments))

/-- A parameter of the enclosing template. -/
def parameter (name : String) : TypeRef := ofKind (.parameter name)

/-- A struct without a name. -/
def inline (body : StructBody) : TypeRef := ofKind (.inline body)

/-- An array of fixed length. -/
def array (element : TypeRef) (size : Expr) : TypeRef := ofKind (.array element size)

/-- Names that are looked up one inside the other. -/
def path (names : List String) : TypeRef := ofKind (.path (names.map fun name => ⟨name, none⟩))

/-- The same reference, admitting `null`. -/
def orNull (r : TypeRef) : TypeRef := { r with nullable := true }

end TypeRef

namespace StructBody

/-- A struct whose values are objects. -/
def object (fields : List Field) : StructBody := ⟨.object, fields, []⟩

/-- A struct whose values are arrays. -/
def tuple (fields : List Field) : StructBody := ⟨.tuple, fields, []⟩

/-- A struct without fields or bytes. -/
def empty : StructBody := ⟨.empty, [], []⟩

/-- The same struct with one more definition that only it sees. -/
def withLocal (body : StructBody) (name : String) (definition : Definition) : StructBody :=
  { body with locals := Assoc.put body.locals name definition }

end StructBody

namespace EnumBody

/-- The tags are `0, 1, 2, ...` in the order of the variants, whose bodies are kept local. -/
def indexed (shape : EnumShape) (variants : List (String × Definition)) : EnumBody where
  shape := shape
  tagType := none
  target := none
  entries := variants.zipIdx.map fun (variant, i) => ⟨Json.ofUInt64 (UInt64.ofNat i), variant.1⟩
  locals := Assoc.collapse variants

/-- The same enum with another tag type. -/
def withTagType (body : EnumBody) (type : TypeRef) : EnumBody := { body with tagType := some type }

/-- The same enum with another discriminant key. -/
def withTarget (body : EnumBody) (target : String) : EnumBody := { body with target := some target }

end EnumBody

namespace Definition

/-- The definitions that only this one sees; an enum has a namespace even if it is empty. -/
def locals? : Definition → Option (Assoc Definition)
  | .enum body => some body.locals
  | .struct body => if body.locals.isEmpty then none else some body.locals
  | _ => none

end Definition

end Wireform
