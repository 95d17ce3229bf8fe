import Wireform.Codec.Decoding
import Wireform.Identifier.Parser
import Wireform.Session.Resolution

/-!
# Compiled schemas

A schema is a session in which all top-level definitions have been compiled. More
types can be resolved in it at any time.

* `Schema.compile`: the schema of some definitions.
* `Schema.resolve`: a type by its text; a failure leaves the schema as it was.
* `TypeCodec.encode`, `TypeCodec.decode`: values of a type as bytes.
-/

namespace Wireform

/-- A compiled schema. -/
structure Schema where
  session : Session

/-- One type of a schema, ready for use. -/
structure TypeCodec where
  arena : Arena
  id : TypeId
  type : CompiledType

namespace Schema

/-- How many levels of references are resolved inside each other: more than there is room for. -/
def maxLevels : Nat := 1000000000

/-- What a computation on sessions gives, and the session after it. -/
def outcome {α : Type} (x : Compile α) (s : Session) :
    Except (Stop CompileError) α × Session :=
  match x s with
  | .ok value after => (.ok value, after)
  | .error stop after => (.error stop, after)

/-- Defines names one after the other. -/
def defineAll (s : Session) (definitions : List (String × Definition)) :
    Except CompileError Session :=
  definitions.foldlM (fun s (name, definition) => s.define name definition) s

/-- Compiles the definitions of a session in order. -/
def compileAll : Compile Unit := do
  (← get).topLevelNames.forM (Session.compileName maxLevels)

/-- The schema of some definitions, whose names must be distinct. -/
def compile (definitions : List (String × Definition)) (options : Options) :
    Except (Stop CompileError) Schema := do
  let s ← (defineAll (.initial options) definitions).mapError .failure
  match compileAll s with
  | .ok _ s => .ok ⟨s⟩
  | .error stop _ => .error stop

/-- The options of a schema. -/
def options (schema : Schema) : Options := schema.session.options

/-- The type in a slot. -/
def codec? (schema : Schema) (id : TypeId) : Option TypeCodec :=
  (schema.session.arena.get? id).map fun type => ⟨schema.session.arena, id, type⟩

/-- A top-level definition or a primitive by its name. -/
def get? (schema : Schema) (name : String) : Option TypeCodec := do
  schema.codec? (← schema.session.rootEntry? name)

/-- The top-level definitions that are types, in order. -/
def types (schema : Schema) : List (String × TypeCodec) :=
  schema.session.topLevelNames.filterMap fun name => do return (name, ← schema.get? name)

/-- The type of a reference, which is compiled if need be, and the schema after that. -/
def resolveRef (schema : Schema) (r : TypeRef) :
    Except (Stop CompileError) TypeId × Schema :=
  let (result, session) := outcome (Session.resolveRef maxLevels r) schema.session
  (result, ⟨session⟩)

/-- The type that a text refers to, and the schema after that. -/
def resolve (schema : Schema) (text : String) :
    Except (Stop CompileError) TypeCodec × Schema :=
  match TypeRef.parse text [] with
  | .error error => (.error (.failure error), schema)
  | .ok r =>
    match schema.resolveRef r with
    | (.error stop, schema) => (.error stop, schema)
    | (.ok id, schema) =>
      match schema.codec? id with
      | some codec => (.ok codec, schema)
      | none => (.error (.failure (.violation (.emptySlot text))), schema)

end Schema

namespace TypeCodec

/-- The canonical text of the type. -/
def ident (codec : TypeCodec) : String := codec.type.ident

/-- The upper bound of its length. -/
def maxSize (codec : TypeCodec) : Size := codec.type.maxSize

/-- Appends a value to a buffer. -/
def encodeInto (codec : TypeCodec) (value : Json) : Encoding Unit :=
  codec.arena.encode codec.id value

/-- The bytes of a value. -/
def encode (codec : TypeCodec) (value : Json) : Except (Stop CodecFailure) (List UInt8) :=
  match codec.encodeInto value #[] with
  | .ok _ buffer => .ok buffer.toList
  | .error stop _ => .error stop

/-- The value in front of some bytes, and how many bytes it takes. -/
def decodePrefix (codec : TypeCodec) (bytes : List UInt8) :
    Except (Stop CodecFailure) (Json × Nat) :=
  match codec.arena.decode codec.id (.ofBytes bytes) with
  | .ok value after => .ok (value, after.offset)
  | .error stop _ => .error stop

/-- The value of some bytes, all of which it has to take. -/
def decode (codec : TypeCodec) (bytes : List UInt8) : Except (Stop CodecFailure) Json := do
  let (value, used) ← codec.decodePrefix bytes
  if used = bytes.length then .ok value
  else .error (.failure ⟨[], .trailingBytes (bytes.length - used)⟩)

end TypeCodec

end Wireform
