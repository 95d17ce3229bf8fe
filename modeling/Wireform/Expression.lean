import Wireform.Definition

/-!
# Operands and bindings

What an expression computes with: constants and type references. Bindings give
the parameters of a template their arguments.
-/

namespace Wireform

/-- A number or a text. -/
inductive Constant where
  | number (value : Binary64)
  | string (text : String)
deriving DecidableEq

/-- A constant or a type. -/
inductive Operand where
  | constant (value : Constant)
  | type (reference : TypeRef)

namespace Operand

/-- A number. -/
def number (value : Binary64) : Operand := .constant (.number value)

/-- A text. -/
def string (text : String) : Operand := .constant (.string text)

end Operand

/-- The arguments of parameters, by name. -/
abbrev Bindings := Assoc Operand

end Wireform
