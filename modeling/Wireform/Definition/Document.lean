import Wireform.Definition

/-!
# Definitions as JSON

The tag of a tagged object comes first, then its fields in order; what is absent
or empty is left out, and `nullable` comes last. Expression numbers are always
doubles.

* `Definition.toJson`, `TypeRef.toJson`, `Expr.toJson`: the JSON forms.
* `documentOf`: the document of a list of definitions.
-/

namespace Wireform

/-- A member, if there is a value. -/
def optionalMember (name : String) : Option Json → List (String × Json)
  | some value => [(name, value)]
  | none => []

/-- The name of a shape in documents. -/
def StructShape.name : StructShape → String
  | .object => "object"
  | .tuple => "array"
  | .empty => "empty"

/-- The name of a shape in documents. -/
def EnumShape.name : EnumShape → String
  | .object => "object"
  | .tuple => "array"

/-- The JSON form of an enum's entry. -/
def EnumEntry.toJson (entry : EnumEntry) : Json :=
  .object [("tag", entry.tag), ("variant", .string entry.variant)]

/-- The member that marks a reference which admits `null`. -/
def nullableMember (nullable : Bool) : List (String × Json) :=
  if nullable then [("nullable", .bool true)] else []

mutual

/-- The JSON form of a reference. -/
def TypeRef.toJson : TypeRef → Json
  | ⟨kind, nullable⟩ => .object (kind.members ++ nullableMember nullable)

/-- The members of a reference but for the mark for `null`. -/
def TypeKind.members : TypeKind → List (String × Json)
  | .named name arguments =>
    ("ref", .string "named") :: ("name", .string name) :: argumentsMember arguments
  | .parameter name => [("ref", .string "param"), ("name", .string name)]
  | .inline body => [("ref", .string "inline"), ("body", .object body.members)]
  | .array element size =>
    [("ref", .string "array"), ("element", element.toJson), ("size", .array (tokensJson size))]
  | .path segments => [("ref", .string "path"), ("segments", .array (segmentsJson segments))]

/-- The member of an argument list. -/
def argumentsMember : Option (List (List Token)) → List (String × Json)
  | none => []
  | some arguments => [("generics", .array (exprsJson arguments))]

/-- The JSON forms of some expressions. -/
def exprsJson : List (List Token) → List Json
  | [] => []
  | expr :: rest => .array (tokensJson expr) :: exprsJson rest

/-- The JSON forms of some tokens. -/
def tokensJson : List Token → List Json
  | [] => []
  | token :: rest => token.toJson :: tokensJson rest

/-- The JSON form of a token. -/
def Token.toJson : Token → Json
  | .number value => .object [("number", .ofBinary64 value)]
  | .string text => .object [("str", .string text)]
  | .type reference => .object [("type", reference.toJson)]
  | .parameter name => .object [("param", .string name)]
  | .operator name => .object [("op", .string name)]

/-- The JSON forms of some segments. -/
def segmentsJson : List PathSegment → List Json
  | [] => []
  | ⟨name, arguments⟩ :: rest =>
    .object (("name", .string name) :: argumentsMember arguments) :: segmentsJson rest

/-- The members of a struct. -/
def StructBody.members : StructBody → List (String × Json)
  | ⟨shape, fields, locals⟩ =>
    ("shape", .string shape.name) ::
      ((if fields.isEmpty then [] else [("fields", .array (fieldsJson fields))]) ++
        if locals.isEmpty then [] else [("namespace", .object (definitionsJson locals))])

/-- The JSON forms of some fields. -/
def fieldsJson : List Field → List Json
  | [] => []
  | field :: rest => field.toJson :: fieldsJson rest

/-- The JSON form of a field. -/
def Field.toJson : Field → Json
  | .typed key type =>
    .object (("field", .string "typed") :: optionalMember "key" (key.map .string) ++
      [("ty", type.toJson)])
  | .literal key value =>
    .object (("field", .string "literal") :: optionalMember "key" (key.map .string) ++
      [("value", value)])
  | .constant type value =>
    .object [("field", .string "const"), ("ty", type.toJson), ("value", value)]

/-- The members of an enum. -/
def EnumBody.members : EnumBody → List (String × Json)
  | ⟨shape, tagType, target, entries, locals⟩ =>
    ("shape", .string shape.name) ::
      (tagTypeMember tagType ++ optionalMember "target" (target.map .string) ++
        ("entries", .array (entries.map EnumEntry.toJson)) ::
        if locals.isEmpty then [] else [("namespace", .object (definitionsJson locals))])

/-- The member of an enum's tag type. -/
def tagTypeMember : Option TypeRef → List (String × Json)
  | none => []
  | some type => [("tag_type", type.toJson)]

/-- The members of a namespace. -/
def definitionsJson : List (String × Definition) → List (String × Json)
  | [] => []
  | (name, definition) :: rest => (name, definition.toJson) :: definitionsJson rest

/-- The JSON form of a definition. -/
def Definition.toJson : Definition → Json
  | .struct body => .object (("kind", .string "struct") :: body.members)
  | .enum body => .object (("kind", .string "enum") :: body.members)
  | .synonym target => .object [("kind", .string "alias"), ("target", target.toJson)]
  | .template parameters body =>
    .object [("kind", .string "template"), ("params", .array (parameters.map .string)),
      ("body", body.toJson)]

end

/-- The JSON form of an expression. -/
def Expr.toJson (expr : Expr) : Json := .array (tokensJson expr)

/-- The document that gives each name, in order, its definition. -/
def documentOf (definitions : List (String × Definition)) : Json :=
  .object (definitionsJson definitions)

end Wireform
