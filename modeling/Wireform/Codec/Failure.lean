import Wireform.Json.Printer
import Wireform.Wire.Cursor
import Wireform.Stop

/-!
# Why encoding or decoding fails

A failure is a cause and the path from the value to the place where it arose. The
path names fields, positions and, where an enum was entered, the variant.

* `CodecFailure.within`: one step further out.
* `CodecError.message`: the wording of a cause.
-/

namespace Wireform

/-- A kind of value that a type asks for. -/
inductive ValueKind where
  | number | bool | string | array | object
  /-- A date as text or a number of milliseconds. -/
  | moment
deriving DecidableEq

/-- A kind of value, in words. -/
def ValueKind.text : ValueKind → String
  | .number => "number"
  | .bool => "bool"
  | .string => "string"
  | .array => "array"
  | .object => "object"
  | .moment => "RFC 3339 string or milliseconds"

/-- Why a value is not encoded, or bytes are not decoded. -/
inductive CodecError where
  | unknownVariant (value : Json)
  | typeMismatch (expected : ValueKind) (found : Json)
  | missingField (name : String)
  | lengthMismatch (expected found : Nat)
  | outOfRange (value : Number) (type : String)
  | unexpectedEnd (needed offset : Nat)
  | paddingOverflow (size limit : Nat)
  | invalidText
  | invalidJson
  | unreadableDate (text : String)
  | dateOutOfRange (millis : Int)
  | constantMismatch (expected found : Json)
  | trailingBytes (count : Nat)
  /-- A slot holds no type. -/
  | unresolved (slot : Nat)

/-- The wording of a cause. -/
def CodecError.message : CodecError → String
  | .unknownVariant value => "unknown enum value " ++ value.text
  | .typeMismatch expected found => "expected " ++ expected.text ++ ", found " ++ found.kindName
  | .missingField name => "missing field " ++ name
  | .lengthMismatch expected found =>
    "expected " ++ toString expected ++ " elements, found " ++ toString found
  | .outOfRange value type => value.text ++ " does not fit in " ++ type
  | .unexpectedEnd needed offset =>
    "unexpected end of input: needed " ++ toString needed ++ " bytes at offset " ++
      toString offset
  | .paddingOverflow size limit =>
    "encoded size " ++ toString size ++ " exceeds padded size " ++ toString limit
  | .invalidText => "invalid utf-8/utf-16 string data"
  | .invalidJson => "invalid JSON payload"
  | .unreadableDate text => "invalid date: " ++ text
  | .dateOutOfRange millis => "invalid date: " ++ toString millis ++ " ms out of range"
  | .constantMismatch expected found =>
    "constant mismatch: expected " ++ expected.text ++ ", got " ++ found.text
  | .trailingBytes count => toString count ++ " trailing bytes after decoded value"
  | .unresolved slot => "type slot " ++ toString slot ++ " was never compiled"

/-- One step of a path. -/
inductive PathStep where
  /-- The member of an object. -/
  | key (name : String)
  /-- The element of an array. -/
  | index (position : Nat)
  /-- A constant of a struct. -/
  | constant
  /-- The variant of an enum that was entered; the value stays the same. -/
  | variant (name : String)
deriving DecidableEq

/-- The text of a step. -/
def PathStep.text : PathStep → String
  | .key name => name
  | .index position => toString position
  | .constant => "const"
  | .variant name => name

/-- A cause and where it arose. -/
structure CodecFailure where
  /-- From the outside to the inside. -/
  path : List PathStep
  cause : CodecError

namespace CodecFailure

/-- The failure as seen from one step further out. -/
def within (step : PathStep) (f : CodecFailure) : CodecFailure := { f with path := step :: f.path }

/-- The text of the path; it is empty if the value itself is the culprit. -/
def pathText (f : CodecFailure) : String :=
  f.path.foldr (fun step rest => "/" ++ step.text ++ rest) ""

end CodecFailure

/-- Encoding onto the end of a buffer. -/
abbrev Encoding := EStateM (Stop CodecFailure) (Array UInt8)

/-- Decoding at a cursor. -/
abbrev Decoding := EStateM (Stop CodecFailure) Cursor

/-- Fails at the present place. -/
def failWith {σ α : Type} (cause : CodecError) : EStateM (Stop CodecFailure) σ α :=
  throw (.failure ⟨[], cause⟩)

/-- Runs a computation one step further in. -/
def inside {σ α : Type} (step : PathStep) (x : EStateM (Stop CodecFailure) σ α) :
    EStateM (Stop CodecFailure) σ α := fun s =>
  match x s with
  | .error (.failure failure) s => .error (.failure (failure.within step)) s
  | result => result

/-- Appends bytes to the buffer. -/
def emit (bytes : List UInt8) : Encoding Unit := modify fun buffer => buffer ++ bytes.toArray

/-- Reads bytes; too few are an error at the present place. -/
def read {α : Type} (x : Reading α) : Decoding α := fun cursor =>
  match x cursor with
  | .ok value cursor => .ok value cursor
  | .error short cursor => .error (.failure ⟨[], .unexpectedEnd short.needed short.offset⟩) cursor

end Wireform
