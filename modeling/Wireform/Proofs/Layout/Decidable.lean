import Wireform.Layout
import Wireform.Proofs.Json.Decidable

/-!
# Layouts and failures can be compared

Equality of JSON values is decidable, and with it equality of layouts and of failures of
codecs: whether a definition is compiled to some layout, or a value refused for some reason,
can be found out by computing.
-/

namespace Wireform

deriving instance DecidableEq for FieldContent, FieldLayout, StructLayout,
ArrayLayout, VariantLayout,
  EnumLayout, Layout, CompiledType, EnumEntry

deriving instance DecidableEq for CodecError, CodecFailure

end Wireform
