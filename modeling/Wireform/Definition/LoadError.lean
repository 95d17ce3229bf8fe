import Wireform.Json.Printer
import Wireform.Text.Quoted

/-!
# Why a document does not load
-/

namespace Wireform

/-- What a place of a document has to hold. -/
inductive Expected where
  | sequence | string | boolean | double | count | map | singleMember | stringOrMap | unit
  | newtypeVariant | variantName
  | variantIndex (variants : Nat)
  | definitions | definition | field | typeKind
  | record (name : String)
deriving DecidableEq

/-- What is expected, in words. -/
def Expected.text : Expected → String
  | .sequence => "a sequence"
  | .string => "a string"
  | .boolean => "a boolean"
  | .double => "f64"
  | .count => "usize"
  | .map => "a map"
  | .singleMember => "map with a single key"
  | .stringOrMap => "string or map"
  | .unit => "unit"
  | .newtypeVariant => "newtype variant"
  | .variantName => "variant identifier"
  | .variantIndex variants => "variant index 0 <= i < " ++ toString variants
  | .definitions => "an object mapping type names to definitions"
  | .definition => "internally tagged enum Definition"
  | .field => "internally tagged enum FieldDef"
  | .typeKind => "internally tagged enum TypeKind"
  | .record name => "struct " ++ name

/-- What a place of a document holds instead. -/
inductive Found where
  | value (value : Json)
  /-- The name of a variant without the value that goes with it. -/
  | bareVariant

/-- A name between back quotes. -/
def backquoted (name : String) : String := "\x60" ++ name ++ "\x60"

/-- A value, in words. -/
def Found.text : Found → String
  | .value .null => "null"
  | .value (.bool b) => "boolean " ++ backquoted (if b then "true" else "false")
  | .value (.number (.integer n fits)) => "integer " ++ backquoted (Number.integer n fits).text
  | .value (.number (.float x finite)) =>
    "floating point " ++ backquoted (Number.float x finite).text
  | .value (.string text) => "string " ++ Text.quoted text
  | .value (.array _) => "sequence"
  | .value (.object _) => "map"
  | .bareVariant => "unit variant"

/-- What is wrong at a place of a document. -/
inductive LoadFault where
  | missingField (name : String)
  | duplicateField (name : String)
  | unknownVariant (name : String) (known : List String)
  /-- A value of another type. -/
  | invalidType (found : Found) (expected : Expected)
  /-- A value of the right type that cannot stand here. -/
  | invalidValue (found : Found) (expected : Expected)
  /-- A value of another form has to stand here. -/
  | expectedValue

/-- The wording of a fault. -/
def LoadFault.message : LoadFault → String
  | .missingField name => "missing field " ++ backquoted name
  | .duplicateField name => "duplicate field " ++ backquoted name
  | .unknownVariant name [first, second] =>
    "unknown variant " ++ backquoted name ++ ", expected " ++ backquoted first ++ " or " ++
      backquoted second
  | .unknownVariant name known =>
    "unknown variant " ++ backquoted name ++ ", expected one of " ++
      ", ".intercalate (known.map backquoted)
  | .invalidType found expected =>
    "invalid type: " ++ found.text ++ ", expected " ++ expected.text
  | .invalidValue found expected =>
    "invalid value: " ++ found.text ++ ", expected " ++ expected.text
  | .expectedValue => "expected value"

/-- Where a fault is reported. Faults inside a definition are reported at the definition. -/
inductive LoadPlace where
  /-- The document itself. -/
  | document
  /-- The definition of a name. -/
  | definition (name : String)
  /-- The kind of the definition of a name. -/
  | kind (name : String)
  /-- A token of a list, or the value of a token of some kind. -/
  | token (position : Nat) (kind : Option String)
  /-- Whether a reference admits `null`: one that is the document, or one in a token of a list. -/
  | nullable (position : Option Nat)
  /-- A named setting. -/
  | setting (name : String)
deriving DecidableEq

/-- The text of a place. -/
def LoadPlace.text : LoadPlace → String
  | .document => "."
  | .definition name => name
  | .kind name => name ++ ".kind"
  | .token position none => "[" ++ toString position ++ "]"
  | .token position (some part) => "[" ++ toString position ++ "]." ++ part
  | .nullable none => "nullable"
  | .nullable (some position) => "[" ++ toString position ++ "].type.nullable"
  | .setting name => name

/-- Why a document does not load. -/
inductive LoadError where
  /-- The text is not one JSON document. -/
  | malformed
  | fault (place : LoadPlace) (fault : LoadFault)

end Wireform
