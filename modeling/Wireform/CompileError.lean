import Wireform.Definition
import Wireform.Identifier.Lexeme
import Wireform.Stop

/-!
# Why compilation fails
-/

namespace Wireform

/-- What a place asks for. -/
inductive Wanted where
  | number
  | type
  /-- A whole number from zero to `2 ^ 32 - 1`. -/
  | size
  | encoding
deriving DecidableEq

/-- A rule that definitions have to keep. -/
inductive Violation where
  /-- A synonym's target admits `null`. -/
  | nullableSynonym (name : String)
  /-- The body of a template is a template. -/
  | nestedTemplate (name : String)
  /-- A path has no segments. -/
  | emptyPath
  /-- A field of an object struct has no key. -/
  | keylessField
  /-- An instance has the text of a template. -/
  | instanceIsTemplate (key : String)
  /-- A reference leads to a slot that holds no type. -/
  | emptySlot (text : String)
deriving DecidableEq

/-- Why definitions or references do not compile. -/
inductive CompileError where
  | duplicateDefinition (name : String)
  | undefinedType (name : String)
  | unboundedSizeof (type : TypeRef)
  /-- An operator finds too few operands. -/
  | arity (operator : String) (expected found : Nat)
  /-- An expression does not leave exactly one operand. -/
  | resultShape (length : Nat)
  | unknownOperator (name : String)
  /-- A value of another kind is wanted. -/
  | wanted (subject : String) (kind : Wanted)
  | violation (rule : Violation)
  | genericArity (name : String) (expected found : Nat)
  /-- A type contains itself by value. -/
  | recursiveType (name : String)
  | recursionLimit (name : String) (limit : Nat)
  | unsupportedEncoding (label : String)
  | malformed (text : String) (fault : SyntaxFault)

/-- A computation on a state `σ` that can fail to compile. -/
abbrev Compiling (σ : Type) := EStateM (Stop CompileError) σ

/-- Fails with an error. -/
def Compiling.fail {σ α : Type} (error : CompileError) : Compiling σ α := throw (.failure error)

end Wireform
