import Wireform.Expression

/-!
# Substitution of arguments for parameters

A parameter that is bound to a type is replaced everywhere in a reference; one
that is bound to a constant is replaced inside expressions only. Definitions that
are local to an inline struct are left as they are.

* `substitute`: on references.
* `substituteExpr`: on expressions.
-/

namespace Wireform

/-- The token that stands for an argument. -/
def Operand.token : Operand → Token
  | .constant (.number value) => .number value
  | .constant (.string text) => .string text
  | .type reference => .type reference

namespace TypeRef

variable (bindings : Bindings)

mutual

/-- Replaces parameters in a reference; `null` stays admitted. -/
def substitute : TypeRef → TypeRef
  | ⟨.parameter name, nullable⟩ =>
    match bindings.get? name with
    | some (.type bound) => ⟨bound.kind, bound.nullable || nullable⟩
    | _ => ⟨.parameter name, nullable⟩
  | ⟨.named name arguments, nullable⟩ => ⟨.named name (substituteArguments arguments), nullable⟩
  | ⟨.inline body, nullable⟩ => ⟨.inline (substituteBody body), nullable⟩
  | ⟨.array element size, nullable⟩ =>
    ⟨.array (substitute element) (substituteExpr size), nullable⟩
  | ⟨.path segments, nullable⟩ => ⟨.path (substituteSegments segments), nullable⟩

/-- Replaces parameters in an argument list. -/
def substituteArguments : Option (List (List Token)) → Option (List (List Token))
  | none => none
  | some arguments => some (substituteExprs arguments)

/-- Replaces parameters in each of some expressions. -/
def substituteExprs : List (List Token) → List (List Token)
  | [] => []
  | expr :: rest => substituteExpr expr :: substituteExprs rest

/-- Replaces parameters in an expression. -/
def substituteExpr : List Token → List Token
  | [] => []
  | token :: rest => substituteToken token :: substituteExpr rest

/-- Replaces one token. -/
def substituteToken : Token → Token
  | .parameter name =>
    match bindings.get? name with
    | some bound => bound.token
    | none => .parameter name
  | .type reference => .type (substitute reference)
  | .number value => .number value
  | .string text => .string text
  | .operator name => .operator name

/-- Replaces parameters in the arguments of each segment. -/
def substituteSegments : List PathSegment → List PathSegment
  | [] => []
  | ⟨name, arguments⟩ :: rest => ⟨name, substituteArguments arguments⟩ :: substituteSegments rest

/-- Replaces parameters in the fields of a struct. -/
def substituteBody : StructBody → StructBody
  | ⟨shape, fields, locals⟩ => ⟨shape, substituteFields fields, locals⟩

/-- Replaces parameters in each of some fields. -/
def substituteFields : List Field → List Field
  | [] => []
  | field :: rest => substituteField field :: substituteFields rest

/-- Replaces parameters in the type of a field. -/
def substituteField : Field → Field
  | .typed key type => .typed key (substitute type)
  | .constant type value => .constant (substitute type) value
  | .literal key value => .literal key value

end

end TypeRef

end Wireform
