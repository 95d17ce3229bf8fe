import Wireform.Primitive
import Wireform.Codec.Failure
import Wireform.Calendar.Timestamp
import Wireform.Json.Reader
import Wireform.Binary64.Single
import Wireform.Text.Utf16
import Wireform.Text.Utf8

/-!
# Primitive values in bytes

Whole numbers may be given as doubles without a fraction; those at the very end of
the 64-bit range are taken for the greatest word.

* `Primitive.encode`, `Primitive.decode`: both directions.
-/

namespace Wireform

namespace Number

/-- A number as an unsigned word. A double must be whole and from zero to `2 ^ 64`; that end itself
gives the greatest word. -/
def toWord? (n : Number) : Option UInt64 :=
  match n.toUnsigned? with
  | some value => some (UInt64.ofNat value)
  | none =>
    let x := n.toBinary64
    if x.isWhole ∧ 0 ≤ x.truncate ∧ x.truncate ≤ 18446744073709551616 then
      some (UInt64.ofNat (min x.truncate.toNat 18446744073709551615))
    else none

/-- A number as a signed word. A double must be whole and from `-2 ^ 63` to `2 ^ 63`; the upper end
gives the greatest word. -/
def toSignedWord? (n : Number) : Option Int64 :=
  match n.toSigned? with
  | some value => some (Int64.ofInt value)
  | none =>
    let x := n.toBinary64
    if x.isWhole ∧ -9223372036854775808 ≤ x.truncate ∧ x.truncate ≤ 9223372036854775808 then
      some (Int64.ofInt (min x.truncate 9223372036854775807))
    else none

end Number

namespace Primitive

variable {σ : Type}

/-- A value as an unsigned word; the type is named in the error. -/
def unsignedWord (type : String) : Json → EStateM (Stop CodecFailure) σ UInt64
  | .number n =>
    match n.toWord? with
    | some word => pure word
    | none => failWith (.outOfRange n type)
  | other => failWith (.typeMismatch .number other)

/-- A value as a signed word; the type is named in the error. -/
def signedWord (type : String) : Json → EStateM (Stop CodecFailure) σ Int64
  | .number n =>
    match n.toSignedWord? with
    | some word => pure word
    | none => failWith (.outOfRange n type)
  | other => failWith (.typeMismatch .number other)

/-- A value as a double. -/
def doubleOf : Json → EStateM (Stop CodecFailure) σ Binary64
  | .number n => pure n.toBinary64
  | other => failWith (.typeMismatch .number other)

/-- The bytes of a text. -/
def textBytes (encoding : TextEncoding) (text : String) : List UInt8 :=
  match encoding with
  | .utf8 => Text.utf8 text
  | .utf16le => (Text.utf16 text.toList).flatMap fun unit => Wire.natBytes .little 2 unit.toNat

/-- Bytes two by two, the less significant one first. -/
def codeUnits? : List UInt8 → Option (List UInt16)
  | [] => some []
  | [_] => none
  | low :: high :: rest =>
    (codeUnits? rest).map (UInt16.ofNat (Wire.ofLittleEndian [low, high]) :: ·)

/-- The text with given bytes. -/
def textOfBytes? (encoding : TextEncoding) (bytes : List UInt8) : Option String :=
  match encoding with
  | .utf8 => Text.ofUtf8? bytes
  | .utf16le => do
    let units ← codeUnits? bytes
    return String.ofList (← Text.ofUtf16? units)

/-- Text is written behind the number of its bytes. -/
def encodeText (encoding : TextEncoding) (text : String) : Encoding Unit := do
  let bytes := textBytes encoding text
  emit (Wire.uvarBytes bytes.length)
  emit bytes

/-- Text behind the number of its bytes. -/
def decodeText (encoding : TextEncoding) : Decoding String := do
  let length ← read Cursor.uvar
  let bytes ← read (Cursor.take length)
  match textOfBytes? encoding bytes with
  | some text => pure text
  | none => failWith .invalidText

/-- The milliseconds of a date. -/
def dateMillis : Json → Encoding Int64
  | .string text =>
    match Timestamp.parse? text with
    | some millis => pure (Int64.ofInt millis)
    | none => failWith (.unreadableDate text)
  | .number n => signedWord "Date" (.number n)
  | other => failWith (.typeMismatch .moment other)

/-- Writes a value of a primitive type. -/
def encode (p : Primitive) (value : Json) : Encoding Unit := do
  match p with
  | .uint width order =>
    let word ← unsignedWord p.label value
    if word.toNat < width.words then emit (Wire.natBytes order width.bytes word.toNat)
    else failWith (.outOfRange (.ofUInt64 word) p.label)
  | .int width order =>
    let word ← signedWord p.label value
    let half : Int := (width.words / 2 : Nat)
    if -half ≤ word.toInt ∧ word.toInt < half then
      emit (Wire.intBytes order width.bytes word.toInt)
    else failWith (.outOfRange (.ofInt64 word) p.label)
  | .single order => emit (Wire.natBytes order 4 (← doubleOf value).toSingleBits.toNat)
  | .double order => emit (Wire.natBytes order 8 (← doubleOf value).bits.toNat)
  | .bool =>
    match value with
    | .bool b => emit [if b then 1 else 0]
    | other => failWith (.typeMismatch .bool other)
  | .uvar => emit (Wire.uvarBytes (← unsignedWord "uvar" value).toNat)
  | .ivar => emit (Wire.uvarBytes (Wire.zigzag (← signedWord "ivar" value).toInt))
  | .string encoding =>
    match value with
    | .string text => encodeText encoding text
    | other => failWith (.typeMismatch .string other)
  | .json => encodeText .utf8 value.text
  | .date => emit (Wire.intBytes .big 8 (← dateMillis value).toInt)

/-- Reads a value of a primitive type. -/
def decode (p : Primitive) : Decoding Json := do
  match p with
  | .uint width order => return .ofUInt64 (UInt64.ofNat (← read (Cursor.uint order width.bytes)))
  | .int width order => return .ofInt64 (Int64.ofInt (← read (Cursor.int order width.bytes)))
  | .single order =>
    return .ofBinary64 (.ofSingleBits (UInt32.ofNat (← read (Cursor.uint order 4))))
  | .double order => return .ofBinary64 ⟨UInt64.ofNat (← read (Cursor.uint order 8))⟩
  | .bool => return .bool ((← read Cursor.byte) ≠ 0)
  | .uvar => return .ofUInt64 (UInt64.ofNat (← read Cursor.uvar))
  | .ivar => return .ofInt64 (Int64.ofInt (Wire.unzigzag (← read Cursor.uvar)))
  | .string encoding => return .string (← decodeText encoding)
  | .json =>
    match Json.parse? (← decodeText .utf8) with
    | some value => pure value
    | none => failWith .invalidJson
  | .date =>
    let millis ← read (Cursor.int .big 8)
    match Timestamp.text? millis with
    | some text => return .string text
    | none => failWith (.dateOutOfRange millis)

end Primitive

end Wireform
