import Wireform.Proofs.Expression.Substitution

/-!
# The names that a reference asks for

A reference without parameters means the same under all bindings. What it means depends on the names
that are looked up around the place where it stands: all of its names but those that follow a point,
and what is inside them.

* `TypeRef.asks`: a reference without parameters and without definitions of its own, all of whose
  names that are looked up around it have a property.
* `TypeRef.substitute_of_asks`: no binding changes it.
-/

namespace Wireform

mutual

/-- There are no parameters and no definitions inside, and all names that are looked up around it
satisfy `p`. -/
def TypeRef.asks (p : String → Bool) : TypeRef → Bool
  | ⟨.parameter _, _⟩ => false
  | ⟨.named name arguments, _⟩ => p name && argumentsAsk p arguments
  | ⟨.inline body, _⟩ => bodyAsks p body
  | ⟨.array element size, _⟩ => element.asks p && exprAsks p size
  | ⟨.path segments, _⟩ => segmentsAsk p segments

/-- In an argument list. -/
def argumentsAsk (p : String → Bool) : Option (List (List Token)) → Bool
  | none => true
  | some arguments => exprsAsk p arguments

/-- In each of some expressions. -/
def exprsAsk (p : String → Bool) : List (List Token) → Bool
  | [] => true
  | expr :: rest => exprAsks p expr && exprsAsk p rest

/-- In an expression. -/
def exprAsks (p : String → Bool) : List Token → Bool
  | [] => true
  | token :: rest => tokenAsks p token && exprAsks p rest

/-- In a token. -/
def tokenAsks (p : String → Bool) : Token → Bool
  | .parameter _ => false
  | .type reference => reference.asks p
  | .number _ | .string _ | .operator _ => true

/-- In a path; only its first name is looked up around it. -/
def segmentsAsk (p : String → Bool) : List PathSegment → Bool
  | [] => true
  | ⟨name, arguments⟩ :: rest =>
    p name && argumentsAsk p arguments && segmentsAsk (fun _ => true) rest

/-- In a struct. -/
def bodyAsks (p : String → Bool) : StructBody → Bool
  | ⟨_, fields, locals⟩ => locals.isEmpty && fieldsAsk p fields

/-- In each of some fields. -/
def fieldsAsk (p : String → Bool) : List Field → Bool
  | [] => true
  | field :: rest => fieldAsks p field && fieldsAsk p rest

/-- In a field. -/
def fieldAsks (p : String → Bool) : Field → Bool
  | .typed _ type => type.asks p
  | .constant type _ => type.asks p
  | .literal _ _ => true

end

variable (bindings : Bindings)

open TypeRef

mutual

/-- Bindings do not change it. -/
theorem TypeRef.substitute_of_asks {p : String → Bool} :
    ∀ r : TypeRef, r.asks p = true → r.substitute bindings = r
  | ⟨.parameter _, _⟩, h => by
    rw [asks] at h
    cases h
  | ⟨.named name arguments, nullable⟩, h => by
    rw [asks, Bool.and_eq_true] at h
    rw [substitute, substituteArguments_of_asks arguments h.2]
  | ⟨.inline body, nullable⟩, h => by
    rw [asks] at h
    rw [substitute, substituteBody_of_asks body h]
  | ⟨.array element size, nullable⟩, h => by
    rw [asks, Bool.and_eq_true] at h
    rw [substitute, TypeRef.substitute_of_asks element h.1, substituteExpr_of_asks size h.2]
  | ⟨.path segments, nullable⟩, h => by
    rw [asks] at h
    rw [substitute, substituteSegments_of_asks segments h]

theorem substituteArguments_of_asks {p : String → Bool} :
    ∀ arguments : Option (List (List Token)), argumentsAsk p arguments = true →
      substituteArguments bindings arguments = arguments
  | none, _ => rfl
  | some arguments, h => by
    rw [argumentsAsk] at h
    rw [substituteArguments, substituteExprs_of_asks arguments h]

theorem substituteExprs_of_asks {p : String → Bool} :
    ∀ exprs : List (List Token), exprsAsk p exprs = true → substituteExprs bindings exprs = exprs
  | [], _ => rfl
  | expr :: rest, h => by
    rw [exprsAsk, Bool.and_eq_true] at h
    rw [substituteExprs, substituteExpr_of_asks expr h.1, substituteExprs_of_asks rest h.2]

theorem substituteExpr_of_asks {p : String → Bool} :
    ∀ expr : List Token, exprAsks p expr = true → substituteExpr bindings expr = expr
  | [], _ => rfl
  | token :: rest, h => by
    rw [exprAsks, Bool.and_eq_true] at h
    rw [substituteExpr, substituteToken_of_asks token h.1, substituteExpr_of_asks rest h.2]

theorem substituteToken_of_asks {p : String → Bool} :
    ∀ token : Token, tokenAsks p token = true → substituteToken bindings token = token
  | .parameter _, h => by
    rw [tokenAsks] at h
    cases h
  | .type reference, h => by
    rw [tokenAsks] at h
    rw [substituteToken, TypeRef.substitute_of_asks reference h]
  | .number _, _ | .string _, _ | .operator _, _ => rfl

theorem substituteSegments_of_asks {p : String → Bool} :
    ∀ segments : List PathSegment, segmentsAsk p segments = true →
      substituteSegments bindings segments = segments
  | [], _ => rfl
  | ⟨name, arguments⟩ :: rest, h => by
    rw [segmentsAsk, Bool.and_eq_true, Bool.and_eq_true] at h
    rw [substituteSegments, substituteArguments_of_asks arguments h.1.2,
      substituteSegments_of_asks rest h.2]

theorem substituteBody_of_asks {p : String → Bool} :
    ∀ body : StructBody, bodyAsks p body = true → substituteBody bindings body = body
  | ⟨shape, fields, locals⟩, h => by
    rw [bodyAsks, Bool.and_eq_true] at h
    rw [substituteBody, substituteFields_of_asks fields h.2]

theorem substituteFields_of_asks {p : String → Bool} :
    ∀ fields : List Field, fieldsAsk p fields = true → substituteFields bindings fields = fields
  | [], _ => rfl
  | field :: rest, h => by
    rw [fieldsAsk, Bool.and_eq_true] at h
    rw [substituteFields, substituteField_of_asks field h.1, substituteFields_of_asks rest h.2]

theorem substituteField_of_asks {p : String → Bool} :
    ∀ field : Field, fieldAsks p field = true → substituteField bindings field = field
  | .typed key type, h => by
    rw [fieldAsks] at h
    rw [substituteField, TypeRef.substitute_of_asks type h]
  | .constant type value, h => by
    rw [fieldAsks] at h
    rw [substituteField, TypeRef.substitute_of_asks type h]
  | .literal _ _, _ => rfl

end

end Wireform
