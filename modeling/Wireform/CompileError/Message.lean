import Wireform.Identifier.Canonical

/-!
# The wording of compile errors
-/

namespace Wireform

/-- What is asked for, in words. -/
def Wanted.text : Wanted → String
  | .number => "numeric value"
  | .type => "a type"
  | .size => "a non-negative integer"
  | .encoding => "an encoding name"

/-- The rule that is broken, in words. -/
def Violation.text : Violation → String
  | .nullableSynonym name => "alias " ++ name ++ " should not be nullable"
  | .nestedTemplate name => name ++ ": a template body cannot itself be a template"
  | .emptyPath => "empty type path"
  | .keylessField => "object struct field has no key"
  | .instanceIsTemplate key => key ++ " is registered as a template"
  | .emptySlot text => text ++ " resolved to an empty slot"

/-- The wording of an error. -/
def CompileError.message : CompileError → String
  | .duplicateDefinition name => "Compile error: " ++ name ++ " is already defined"
  | .undefinedType name => "Compile error: " ++ name ++ " is not defined"
  | .unboundedSizeof type => "sizeof can't be used for unbounded type " ++ type.describe
  | .arity operator expected found =>
    operator ++ ": " ++ toString expected ++ " arguments expected; " ++ toString found ++
      " received"
  | .resultShape length => "expression result length must be 1, got " ++ toString length
  | .unknownOperator name => "operator " ++ name ++ " does not exist"
  | .wanted subject kind => subject ++ " expects " ++ kind.text
  | .violation rule => "invariant violation: " ++ rule.text
  | .genericArity name expected found =>
    name ++ " expects " ++ toString expected ++ " generic arguments; " ++ toString found ++
      " received"
  | .recursiveType name => name ++ " contains itself by value and can never be encoded"
  | .recursionLimit name limit =>
    "compilation nested deeper than " ++ toString limit ++ " blocks while compiling " ++ name
  | .unsupportedEncoding label => "unsupported string encoding " ++ Text.quoted label
  | .malformed text fault => "cannot parse type " ++ Text.quoted text ++ ": " ++ fault.message

end Wireform
