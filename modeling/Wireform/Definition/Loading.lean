import Wireform.Definition.Document
import Wireform.Definition.LoadError
import Wireform.Json.Reader
import Wireform.Text.Utf8

/-!
# Loading definitions

Objects are read member by member in document order, so that the first offending
member is the one that is reported. Unknown members are skipped, known ones may
not be repeated, and what is missing is noticed at the object's end. The tag of a
tagged object is read before its other members.

* `TypeRef.load`, `Expr.load`: a reference or an expression that stands alone.
* `loadDocument`: the definitions of a document, repeated names included.
-/

namespace Wireform.Loading

/-- The result of loading a part of a document. -/
abbrev Load (α : Type) := Except LoadFault α

/-- A value of the wrong type. -/
def wrongType {α : Type} (found : Json) (expected : Expected) : Load α :=
  .error (.invalidType (.value found) expected)

/-- Stores a member that may come only once. -/
def once {α : Type} (name : String) (before : Option α) (value : Load α) : Load (Option α) :=
  match before with
  | some _ => .error (.duplicateField name)
  | none => value.map some

/-- A member that has to be there. -/
def required {α : Type} (name : String) : Option α → Load α
  | some value => .ok value
  | none => .error (.missingField name)

/-- A member for which `null` stands for nothing. -/
def orNull {α : Type} (load : Json → Load α) : Json → Load (Option α)
  | .null => .ok none
  | value => (load value).map some

/-- A string. -/
def string : Json → Load String
  | .string text => .ok text
  | other => wrongType other .string

/-- A boolean. -/
def boolean : Json → Load Bool
  | .bool value => .ok value
  | other => wrongType other .boolean

/-- A number of an expression. -/
def double : Json → Load Binary64
  | .number value => .ok value.toBinary64
  | other => wrongType other .double

/-- A count. -/
def count : Json → Load Nat
  | .number value =>
    match value with
    | .integer n fits =>
      if 0 ≤ n then .ok n.toNat
      else .error (.invalidValue (.value (.number (.integer n fits))) .count)
    | other => wrongType (.number other) .count
  | other => wrongType other .count

/-- A list of strings. -/
def strings : Json → Load (List String)
  | .array items => items.mapM string
  | other => wrongType other .sequence

/-- The variant with a given name. -/
def variant {α : Type} (variants : List (String × α)) (name : String) : Load α :=
  match Assoc.get? variants name with
  | some value => .ok value
  | none => .error (.unknownVariant name (Assoc.keys variants))

/-- A variant's name. -/
def tagName {α : Type} (variants : List (String × α)) : Json → Load α
  | .string name => variant variants name
  | other => wrongType other .variantName

/-- A variant's name, or its position among the variants. -/
def tagNameOrIndex {α : Type} (variants : List (String × α)) : Json → Load α
  | .number (.integer index fits) =>
    if 0 ≤ index then
      match variants[index.toNat]? with
      | some (_, value) => .ok value
      | none =>
        .error (.invalidValue (.value (.number (.integer index fits)))
          (.variantIndex variants.length))
    else wrongType (.number (.integer index fits)) .variantName
  | other => tagName variants other

/-- A variant that has no value of its own. -/
def plainVariant {α : Type} (variants : List (String × α)) : Json → Load α
  | .string name => variant variants name
  | .object [(name, value)] => do
    let result ← variant variants name
    match value with
    | .null | .object [] => .ok result
    | other => wrongType other .unit
  | .object members => .error (.invalidValue (.value (.object members)) .singleMember)
  | other => wrongType other .stringOrMap

/-- What can be wrong with the tag of an object. -/
inductive TagFault where
  | missing
  | duplicate
  /-- The value of the tag is bad. -/
  | value (fault : LoadFault)

/-- The fault of an object whose tag is bad. -/
def TagFault.fault (tag : String) : TagFault → LoadFault
  | .missing => .missingField tag
  | .duplicate => .duplicateField tag
  | .value fault => fault

/-- The tag of an object; members with other names are passed over. -/
def tagOf {α : Type} (tag : String) (load : Json → Load α) :
    Option α → List (String × Json) → Except TagFault α
  | some found, [] => .ok found
  | none, [] => .error .missing
  | found, (name, value) :: rest =>
    if name = tag then
      match found, load value with
      | some _, _ => .error .duplicate
      | none, .ok found => tagOf tag load (some found) rest
      | none, .error fault => .error (.value fault)
    else tagOf tag load found rest

/-- The tag of an object inside a definition. -/
def innerTag {α : Type} (tag : String) (variants : List (String × α))
    (members : List (String × Json)) : Load α :=
  (tagOf tag (tagNameOrIndex variants) none members).mapError (TagFault.fault tag)

/-- Whether a reference admits `null`; other members are passed over. -/
def nullableOf : Option Bool → List (String × Json) → Load Bool
  | found, [] => .ok (found.getD false)
  | found, (name, value) :: rest =>
    if name = "nullable" then do
      let found ← once name found (boolean value)
      nullableOf found rest
    else nullableOf found rest

/-- The kinds of definitions. -/
inductive DefinitionTag where
  | struct | enum | synonym | template

/-- The kinds of fields. -/
inductive FieldTag where
  | typed | literal | constant

/-- The kinds of references. -/
inductive TypeTag where
  | named | parameter | inline | array | path

/-- The kinds of tokens. -/
inductive TokenTag where
  | number | string | type | parameter | operator

/-- The kinds of definitions, by name. -/
def definitionTags : List (String × DefinitionTag) :=
  [("struct", .struct), ("enum", .enum), ("alias", .synonym), ("template", .template)]

/-- The kinds of fields, by name. -/
def fieldTags : List (String × FieldTag) :=
  [("typed", .typed), ("literal", .literal), ("const", .constant)]

/-- The kinds of references, by name. -/
def typeTags : List (String × TypeTag) :=
  [("named", .named), ("param", .parameter), ("inline", .inline), ("array", .array),
    ("path", .path)]

/-- The kinds of tokens, by name. -/
def tokenTags : List (String × TokenTag) :=
  [("number", .number), ("str", .string), ("type", .type), ("param", .parameter),
    ("op", .operator)]

/-- The shapes of structs, by name. -/
def structShapes : List (String × StructShape) :=
  [StructShape.object, .tuple, .empty].map fun shape => (shape.name, shape)

/-- The shapes of enums, by name. -/
def enumShapes : List (String × EnumShape) :=
  [EnumShape.object, .tuple].map fun shape => (shape.name, shape)

/-- The members of an enum's entry, so far. -/
def entryMembers (tag : Option Json) (name : Option String) :
    List (String × Json) → Load EnumEntry
  | [] => do return ⟨← required "tag" tag, ← required "variant" name⟩
  | (member, value) :: rest => do
    match member with
    | "tag" => entryMembers (← once member tag (.ok value.collapse)) name rest
    | "variant" => entryMembers tag (← once member name (string value)) rest
    | _ => entryMembers tag name rest

/-- An enum's entry. -/
def entry : Json → Load EnumEntry
  | .object members => entryMembers none none members
  | other => wrongType other (.record "EnumEntry")

/-- The entries of an enum. -/
def entries : Json → Load (List EnumEntry)
  | .array items => items.mapM entry
  | other => wrongType other .sequence

/-- The members of a struct, so far. -/
structure PartialStruct where
  shape : Option StructShape
  fields : Option (List Field)
  locals : Option (List (String × Definition))

/-- The members of an enum, so far. -/
structure PartialEnum where
  shape : Option EnumShape
  tagType : Option (Option TypeRef)
  target : Option (Option String)
  entries : Option (List EnumEntry)
  locals : Option (List (String × Definition))

/-- A struct, from all its members. -/
def PartialStruct.finish (p : PartialStruct) : Load StructBody := do
  return ⟨← required "shape" p.shape, p.fields.getD [], p.locals.getD []⟩

/-- An enum, from all its members. -/
def PartialEnum.finish (p : PartialEnum) : Load EnumBody := do
  let shape ← required "shape" p.shape
  let entries ← required "entries" p.entries
  return ⟨shape, p.tagType.getD none, p.target.getD none, entries, p.locals.getD []⟩

mutual

/-- A definition inside another one. -/
def definition : Json → Load Definition
  | .object members => do
    match ← innerTag "kind" definitionTags members with
    | .struct => (structMembers ⟨none, none, none⟩ members).map .struct
    | .enum => (enumMembers ⟨none, none, none, none, none⟩ members).map .enum
    | .synonym => synonymMembers none members
    | .template => templateMembers none none members
  | other => wrongType other .definition

/-- The members of a struct. -/
def structMembers (p : PartialStruct) : List (String × Json) → Load StructBody
  | [] => p.finish
  | (name, value) :: rest => do
    match name with
    | "shape" =>
      let shape ← once name p.shape (plainVariant structShapes value)
      structMembers { p with shape } rest
    | "fields" =>
      let fields ← once name p.fields (fields value)
      structMembers { p with fields } rest
    | "namespace" =>
      let locals ← once name p.locals (definitions value)
      structMembers { p with locals } rest
    | _ => structMembers p rest

/-- The members of an enum. -/
def enumMembers (p : PartialEnum) : List (String × Json) → Load EnumBody
  | [] => p.finish
  | (name, value) :: rest => do
    match name with
    | "shape" =>
      let shape ← once name p.shape (plainVariant enumShapes value)
      enumMembers { p with shape } rest
    | "tag_type" =>
      let tagType ← once name p.tagType
        (if value.isNull then .ok none else (typeRef value).map some)
      enumMembers { p with tagType } rest
    | "target" =>
      let target ← once name p.target (orNull string value)
      enumMembers { p with target } rest
    | "entries" =>
      let entries ← once name p.entries (entries value)
      enumMembers { p with entries } rest
    | "namespace" =>
      let locals ← once name p.locals (definitions value)
      enumMembers { p with locals } rest
    | _ => enumMembers p rest

/-- The members of a synonym. -/
def synonymMembers (target : Option TypeRef) : List (String × Json) → Load Definition
  | [] => do return .synonym (← required "target" target)
  | (name, value) :: rest => do
    match name with
    | "target" => synonymMembers (← once name target (typeRef value)) rest
    | _ => synonymMembers target rest

/-- The members of a template. -/
def templateMembers (parameters : Option (List String)) (body : Option Definition) :
    List (String × Json) → Load Definition
  | [] => do return .template (← required "params" parameters) (← required "body" body)
  | (name, value) :: rest => do
    match name with
    | "params" => templateMembers (← once name parameters (strings value)) body rest
    | "body" => templateMembers parameters (← once name body (definition value)) rest
    | _ => templateMembers parameters body rest

/-- A namespace: a repeated name keeps its first place and takes the last definition. -/
def definitions : Json → Load (List (String × Definition))
  | .object members => do return Assoc.collapse (← definitionMembers members)
  | other => wrongType other .map

/-- The members of a namespace. -/
def definitionMembers : List (String × Json) → Load (List (String × Definition))
  | [] => .ok []
  | (name, value) :: rest => do
    let first ← definition value
    return (name, first) :: (← definitionMembers rest)

/-- The fields of a struct. -/
def fields : Json → Load (List Field)
  | .array items => fieldItems items
  | other => wrongType other .sequence

/-- Each of some fields. -/
def fieldItems : List Json → Load (List Field)
  | [] => .ok []
  | item :: rest => do
    let first ← field item
    return first :: (← fieldItems rest)

/-- A field. -/
def field : Json → Load Field
  | .object members => do
    match ← innerTag "field" fieldTags members with
    | .typed => typedMembers none none members
    | .literal => literalMembers none none members
    | .constant => constantMembers none none members
  | other => wrongType other .field

/-- The members of a field with a type. -/
def typedMembers (key : Option (Option String)) (type : Option TypeRef) :
    List (String × Json) → Load Field
  | [] => do return .typed (key.getD none) (← required "ty" type)
  | (name, value) :: rest => do
    match name with
    | "key" => typedMembers (← once name key (orNull string value)) type rest
    | "ty" => typedMembers key (← once name type (typeRef value)) rest
    | _ => typedMembers key type rest

/-- The members of a literal. -/
def literalMembers (key : Option (Option String)) (literal : Option Json) :
    List (String × Json) → Load Field
  | [] => do return .literal (key.getD none) (← required "value" literal)
  | (name, value) :: rest => do
    match name with
    | "key" => literalMembers (← once name key (orNull string value)) literal rest
    | "value" => literalMembers key (← once name literal (.ok value.collapse)) rest
    | _ => literalMembers key literal rest

/-- The members of a constant. -/
def constantMembers (type : Option TypeRef) (constant : Option Json) :
    List (String × Json) → Load Field
  | [] => do return .constant (← required "ty" type) (← required "value" constant)
  | (name, value) :: rest => do
    match name with
    | "ty" => constantMembers (← once name type (typeRef value)) constant rest
    | "value" => constantMembers type (← once name constant (.ok value.collapse)) rest
    | _ => constantMembers type constant rest

/-- A reference. -/
def typeRef : Json → Load TypeRef
  | .object members => do
    let nullable ← nullableOf none members
    let kind ←
      match ← innerTag "ref" typeTags members with
      | .named => namedMembers none none members
      | .parameter => parameterMembers none members
      | .inline => inlineMembers none members
      | .array => arrayMembers none none members
      | .path => pathMembers none members
    return ⟨kind, nullable⟩
  | other => wrongType other (.record "TypeRef")

/-- The members of a named reference. -/
def namedMembers (name : Option String) (arguments : Option (Option (List Expr))) :
    List (String × Json) → Load TypeKind
  | [] => do return .named (← required "name" name) (arguments.getD none)
  | (member, value) :: rest => do
    match member with
    | "name" => namedMembers (← once member name (string value)) arguments rest
    | "generics" => namedMembers name (← once member arguments (exprsOrNull value)) rest
    | _ => namedMembers name arguments rest

/-- The members of a reference to a parameter. -/
def parameterMembers (name : Option String) : List (String × Json) → Load TypeKind
  | [] => do return .parameter (← required "name" name)
  | (member, value) :: rest => do
    match member with
    | "name" => parameterMembers (← once member name (string value)) rest
    | _ => parameterMembers name rest

/-- The members of an inline struct. -/
def inlineMembers (body : Option StructBody) : List (String × Json) → Load TypeKind
  | [] => do return .inline (← required "body" body)
  | (member, value) :: rest => do
    match member with
    | "body" => inlineMembers (← once member body (structBody value)) rest
    | _ => inlineMembers body rest

/-- The members of a reference to an array. -/
def arrayMembers (element : Option TypeRef) (size : Option Expr) :
    List (String × Json) → Load TypeKind
  | [] => do return .array (← required "element" element) (← required "size" size)
  | (member, value) :: rest => do
    match member with
    | "element" => arrayMembers (← once member element (typeRef value)) size rest
    | "size" => arrayMembers element (← once member size (expr value)) rest
    | _ => arrayMembers element size rest

/-- The members of a path. -/
def pathMembers (segments : Option (List PathSegment)) : List (String × Json) → Load TypeKind
  | [] => do return .path (← required "segments" segments)
  | (member, value) :: rest => do
    match member with
    | "segments" => pathMembers (← once member segments (pathSegments value)) rest
    | _ => pathMembers segments rest

/-- The body of an inline struct. -/
def structBody : Json → Load StructBody
  | .object members => structMembers ⟨none, none, none⟩ members
  | other => wrongType other (.record "StructDef")

/-- The segments of a path. -/
def pathSegments : Json → Load (List PathSegment)
  | .array items => segmentItems items
  | other => wrongType other .sequence

/-- Each of some segments. -/
def segmentItems : List Json → Load (List PathSegment)
  | [] => .ok []
  | item :: rest => do
    let first ← segment item
    return first :: (← segmentItems rest)

/-- A segment. -/
def segment : Json → Load PathSegment
  | .object members => segmentMembers none none members
  | other => wrongType other (.record "PathSegment")

/-- The members of a segment. -/
def segmentMembers (name : Option String) (arguments : Option (Option (List Expr))) :
    List (String × Json) → Load PathSegment
  | [] => do return ⟨← required "name" name, arguments.getD none⟩
  | (member, value) :: rest => do
    match member with
    | "name" => segmentMembers (← once member name (string value)) arguments rest
    | "generics" => segmentMembers name (← once member arguments (exprsOrNull value)) rest
    | _ => segmentMembers name arguments rest

/-- An argument list, or nothing. -/
def exprsOrNull : Json → Load (Option (List Expr))
  | .null => .ok none
  | .array items => (exprItems items).map some
  | other => wrongType other .sequence

/-- Each of some expressions. -/
def exprItems : List Json → Load (List Expr)
  | [] => .ok []
  | item :: rest => do
    let first ← expr item
    return first :: (← exprItems rest)

/-- An expression. -/
def expr : Json → Load Expr
  | .array items => tokenItems items
  | other => wrongType other .sequence

/-- Each of some tokens. -/
def tokenItems : List Json → Load Expr
  | [] => .ok []
  | item :: rest => do
    let first ← token item
    return first :: (← tokenItems rest)

/-- A token. -/
def token : Json → Load Token
  | .object [(name, value)] => do
    match ← variant tokenTags name with
    | .number => (double value).map .number
    | .string => (string value).map .string
    | .type => (typeRef value).map .type
    | .parameter => (string value).map .parameter
    | .operator => (string value).map .operator
  | .object members => .error (.invalidValue (.value (.object members)) .singleMember)
  | .string name => do
    let _ ← variant tokenTags name
    .error (.invalidType .bareVariant .newtypeVariant)
  | other => wrongType other .stringOrMap

end

/-- What is wrong with the first `nullable` member of a reference. -/
def nullableFault? (value : Json) : Option LoadFault :=
  match (value.member? "nullable").map boolean with
  | some (.error fault) => some fault
  | _ => none

/-- A reference that stands alone; `position` is that of the token around it. -/
def loneRef (place : LoadPlace) (position : Option Nat) (value : Json) : Except LoadError TypeRef :=
  match nullableFault? value with
  | some fault => .error (.fault (.nullable position) fault)
  | none => (typeRef value).mapError (.fault place)

/-- A token of a list that is a document of its own. A fault inside a token is reported with the
token's kind. -/
def listToken (position : Nat) : Json → Except LoadError Token
  | .object ((name, value) :: rest) => do
    let tag ← (variant tokenTags name).mapError (.fault (.token position none))
    let place := LoadPlace.token position (some name)
    let result ← match tag with
      | .type => (loneRef place (some position) value).map Token.type
      | _ => (token (.object [(name, value)])).mapError (.fault place)
    if rest.isEmpty then .ok result else .error (.fault (.token position none) .expectedValue)
  | .string name => do
    let _ ← (variant tokenTags name).mapError (.fault (.token position none))
    .error (.fault (.token position (some name)) (.invalidType .bareVariant .newtypeVariant))
  | _ => .error (.fault (.token position none) .expectedValue)

/-- A definition of a known kind, from its members. -/
def definitionOf (tag : DefinitionTag) (members : List (String × Json)) : Load Definition :=
  match tag with
  | .struct => (structMembers ⟨none, none, none⟩ members).map .struct
  | .enum => (enumMembers ⟨none, none, none, none, none⟩ members).map .enum
  | .synonym => synonymMembers none members
  | .template => templateMembers none none members

/-- The definition of a name in a document. -/
def topDefinition (name : String) : Json → Except LoadError Definition
  | .object members =>
    match tagOf "kind" (tagName definitionTags) none members with
    | .ok tag => (definitionOf tag members).mapError (.fault (.definition name))
    | .error (.value fault) => .error (.fault (.kind name) fault)
    | .error fault => .error (.fault (.definition name) (fault.fault "kind"))
  | other => .error (.fault (.definition name) (.invalidType (.value other) .definition))

end Loading

/-- The definitions of a document, in order; repeated names are kept. -/
def loadDefinitions : Json → Except LoadError (List (String × Definition))
  | .object members =>
    members.mapM fun (name, value) => do return (name, ← Loading.topDefinition name value)
  | other => .error (.fault .document (.invalidType (.value other) .definitions))

/-- A reference from its JSON form. -/
def TypeRef.load (value : Json) : Except LoadError TypeRef :=
  Loading.loneRef .document none value

/-- An expression from its JSON form. -/
def Expr.load : Json → Except LoadError Expr
  | .array items =>
    items.zipIdx.mapM fun (item, position) => Loading.listToken position item
  | other => .error (.fault .document (.invalidType (.value other) .sequence))

/-- What a text loads as. Text after the document is looked at only if loading fails: it is then
no document at all. -/
def loadText {α : Type} (load : Json → Except LoadError α) (text : List Char) :
    Except LoadError α :=
  match Json.readDocument? text with
  | none => .error .malformed
  | some (value, rest) =>
    match load value with
    | .ok result => .ok result
    | .error error =>
      if (Json.skipSpaces rest).isEmpty then .error error else .error .malformed

/-- The text of a document in bytes. What is not UTF-8 is put down as a null character, which
stands in no document. -/
def documentChars (bytes : List UInt8) : List Char :=
  let (front, complete) := Text.frontOfUtf8 bytes.length bytes
  if complete then front else front ++ ['\x00']

/-- The definitions of a document. -/
def loadDocument (text : List Char) : Except LoadError (List (String × Definition)) :=
  loadText loadDefinitions text

end Wireform
