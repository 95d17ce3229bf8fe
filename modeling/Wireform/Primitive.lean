import Wireform.Expression
import Wireform.Size
import Wireform.CompileError
import Wireform.Wire.Varint

/-!
# Primitive types

The types that a schema can name without defining them, and the builtin templates
that it can apply to arguments.

* `Primitive.registry`: the plain primitives under their names.
* `Builtin.fillDefaults`: the arguments of a builtin template.
-/

namespace Wireform

/-- How text is put into bytes. -/
inductive TextEncoding where
  | utf8
  | utf16le
deriving DecidableEq

/-- The encoding with a given label, in upper or lower case. -/
def TextEncoding.ofLabel? (label : String) : Option TextEncoding :=
  match String.ofList (label.toList.map Char.toLower) with
  | "utf-8" | "utf8" => some .utf8
  | "utf-16le" | "utf16le" => some .utf16le
  | _ => none

/-- The width of a fixed-width integer. -/
inductive Width where
  | w8 | w16 | w32 | w48 | w64
deriving DecidableEq

/-- The number of bytes of a width. -/
def Width.bytes : Width → Nat
  | .w8 => 1
  | .w16 => 2
  | .w32 => 4
  | .w48 => 6
  | .w64 => 8

/-- The number of words of a width. -/
def Width.words (width : Width) : Nat := Nat.pow 256 width.bytes

/-- The number of bits of a width, as it stands in names. -/
def Width.name : Width → String
  | .w8 => "8"
  | .w16 => "16"
  | .w32 => "32"
  | .w48 => "48"
  | .w64 => "64"

/-- A primitive type. -/
inductive Primitive where
  | uint (width : Width) (order : ByteOrder)
  | int (width : Width) (order : ByteOrder)
  | single (order : ByteOrder)
  | double (order : ByteOrder)
  | bool
  | uvar
  | ivar
  | string (encoding : TextEncoding)
  | json
  | date
deriving DecidableEq

namespace Primitive

/-- The plain primitives under their names, in order. -/
def registry : List (String × Primitive) :=
  ([Width.w8, .w16, .w32, .w48, .w64].flatMap fun width =>
    [("u" ++ width.name, .uint width .big), ("i" ++ width.name, .int width .big),
      ("u" ++ width.name ++ "le", .uint width .little),
      ("i" ++ width.name ++ "le", .int width .little)]) ++
  [("f32", .single .big), ("f32le", .single .little), ("f64", .double .big),
    ("f64le", .double .little), ("bool", .bool), ("uvar", .uvar), ("ivar", .ivar),
    ("JSON", .json), ("Date", .date)]

/-- The most bytes that a value takes. -/
def maxSize : Primitive → Size
  | .uint width _ | .int width _ => .bounded width.bytes
  | .single _ => .bounded 4
  | .double _ | .date => .bounded 8
  | .bool => .bounded 1
  | .uvar | .ivar => .bounded 9
  | .string _ | .json => .unbounded

/-- The fewest bytes that a value takes. -/
def minSize : Primitive → Nat
  | .uint width _ | .int width _ => width.bytes
  | .single _ => 4
  | .double _ | .date => 8
  | .bool | .uvar | .ivar | .string _ | .json => 1

/-- Whether a primitive is a number of fixed width. -/
def isNumeric : Primitive → Bool
  | .uint .. | .int .. | .single _ | .double _ => true
  | _ => false

/-- The name in messages; byte order and encoding do not show. -/
def label : Primitive → String
  | .uint width _ => "u" ++ width.name
  | .int width _ => "i" ++ width.name
  | .single _ => "f32"
  | .double _ => "f64"
  | .bool => "bool"
  | .uvar => "uvar"
  | .ivar => "ivar"
  | .string _ => "String"
  | .json => "JSON"
  | .date => "Date"

end Primitive

/-- A builtin template. -/
inductive Builtin where
  /-- Text in an encoding, UTF-8 unless another one is given. -/
  | string
  /-- A list of any length, or of at most so many elements. -/
  | array
  /-- A value in a fixed number of bytes. -/
  | padded
  /-- A fixed number of bytes. -/
  | bytes
deriving DecidableEq

namespace Builtin

/-- All builtin templates. -/
def all : List Builtin := [.string, .array, .padded, .bytes]

/-- The name of a builtin template. -/
def name : Builtin → String
  | .string => "String"
  | .array => "Array"
  | .padded => "Padded"
  | .bytes => "Bytes"

/-- The least and the greatest number of arguments. -/
def arity : Builtin → Nat × Nat
  | .string => (0, 1)
  | .array => (1, 2)
  | .padded => (2, 2)
  | .bytes => (1, 1)

/-- The arguments with defaults for those left out, if their number is right. -/
def fillDefaults (builtin : Builtin) (arguments : List Operand) :
    Except CompileError (List Operand) :=
  let (least, greatest) := builtin.arity
  if arguments.length < least ∨ greatest < arguments.length then
    .error (.genericArity builtin.name greatest arguments.length)
  else if builtin = .string ∧ arguments.isEmpty then .ok [.string "utf-8"]
  else .ok arguments

end Builtin

end Wireform
