import Wireform.Definition.Loading
import Wireform.Toml.Reader

/-!
# Compiler options

* `Options.load`: from JSON.
* `Options.ofToml?`: from a settings file.
-/

namespace Wireform

/-- How definitions are compiled. -/
structure Options where
  /-- How many blocks may be in compilation at once. -/
  maxDepth : Nat := 64
  /-- Whether decoding checks constants. -/
  strictConstants : Bool := false
  /-- The name of the tag type of enums that name none. -/
  defaultTagType : String := "u8"
  /-- The discriminant key of enums that name none. -/
  defaultTagField : String := "type"
deriving DecidableEq

namespace Options

/-- The JSON form of options. -/
def toJson (o : Options) : Json :=
  .object [("max_depth", .ofUInt64 (UInt64.ofNat o.maxDepth)),
    ("strict_constants", .bool o.strictConstants),
    ("default_tag_type", .string o.defaultTagType),
    ("default_tag_field", .string o.defaultTagField)]

/-- Takes over one setting; unknown ones are skipped. -/
def set (o : Options) (name : String) (value : Json) : Loading.Load Options := do
  match name with
  | "max_depth" => return { o with maxDepth := ← Loading.count value }
  | "strict_constants" => return { o with strictConstants := ← Loading.boolean value }
  | "default_tag_type" => return { o with defaultTagType := ← Loading.string value }
  | "default_tag_field" => return { o with defaultTagField := ← Loading.string value }
  | _ => return o

/-- Options from their JSON form; what is absent has its default value. -/
def load : Json → Except LoadError Options
  | .object members =>
    members.foldlM (fun o (name, value) => (o.set name value).mapError (.fault (.setting name))) {}
  | other =>
    .error (.fault .document (.invalidType (.value other) (.record "CompileOptions")))

/-- Takes over one setting of a file; unknown ones are skipped. -/
def setToml? (o : Options) (name : String) (value : Toml) : Option Options :=
  match name, value with
  | "max_depth", .integer n => if 0 ≤ n then some { o with maxDepth := n.toNat } else none
  | "strict_constants", .boolean b => some { o with strictConstants := b }
  | "default_tag_type", .string s => some { o with defaultTagType := s }
  | "default_tag_field", .string s => some { o with defaultTagField := s }
  | "max_depth", _ | "strict_constants", _ | "default_tag_type", _ | "default_tag_field", _ => none
  | _, _ => some o

/-- Options from a settings file; what is absent has its default value. -/
def ofToml? (text : String) : Option Options := do
  let settings ← Toml.parse? text
  settings.foldlM (fun o (name, value) => o.setToml? name value) {}

end Options

end Wireform
