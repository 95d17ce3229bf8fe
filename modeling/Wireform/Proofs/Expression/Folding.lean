import Mathlib.Data.List.Forall2
import Wireform.Identifier.Canonical
import Wireform.Proofs.Ensures

/-!
# Folding of closed arithmetic

A canonical text gives closed arithmetic by its value, so it does not tell `2` from `1 + 1`. A
reference is folded if it does not either: closed arithmetic in its arguments and sizes is replaced
by a constant. Folding leaves alone what an expression evaluates to and which text a reference has,
and it does not matter whether arguments are substituted before or after it.

* `evaluate_of_fold?`: closed arithmetic has its value whatever surrounds it.
* `TypeRef.folded_substitute`: folding after a substitution makes folding before it needless.
* `TypeRef.canonicalChars?_folded`: the text of a folded reference.
-/

namespace Wireform

/-! ### Expressions that differ in their types -/

/-- Two tokens are the same or two types. -/
inductive Token.Alike : Token → Token → Prop
  | same (token : Token) : Alike token token
  | types (r r' : TypeRef) : Alike (.type r) (.type r')

/-- Two operands are the same or two types. -/
inductive Operand.Alike : Operand → Operand → Prop
  | same (operand : Operand) : Alike operand operand
  | types (r r' : TypeRef) : Alike (.type r) (.type r')

/-- The second token is like the first one, or the first one is a parameter. -/
def Token.Covers (token token' : Token) : Prop :=
  token.Alike token' ∨ ∃ name, token = .parameter name

theorem Token.Alike.symm {token token' : Token} (h : token.Alike token') : token'.Alike token := by
  cases h with
  | same token => exact .same token
  | types r r' => exact .types r' r

namespace Expression

variable {σ : Type} (sizeOf : TypeRef → Compiling σ Size) (b : Bindings) (s : σ) {u u' : Unit}

/-- The surroundings of closed arithmetic: they know no size. -/
abbrev noSize : TypeRef → Compiling Unit Size := fun r => .fail (.unboundedSizeof r)

theorem number_of_unit {name : String} {operand operand' : Operand} {value : Binary64}
    (h : number (σ := Unit) name operand u = .ok value u') (hlike : operand.Alike operand') :
    number (σ := σ) name operand' s = .ok value s := by
  cases hlike with
  | types r r' => cases h
  | same operand =>
    rcases operand with ⟨value' | text⟩ | r <;> cases h
    rfl

theorem forall₂_alike_cons {operand : Operand} {stack stack' : List Operand}
    (h : List.Forall₂ Operand.Alike stack stack') :
    List.Forall₂ Operand.Alike (operand :: stack) (operand :: stack') := .cons (.same operand) h

theorem applyOperator_of_unit {name : String} {operator : Operator}
    {stack stack' out : List Operand} (h : applyOperator noSize name operator stack u = .ok out u')
    (hlike : List.Forall₂ Operand.Alike stack stack') :
    ∃ out', applyOperator sizeOf name operator stack' s = .ok out' s ∧
      List.Forall₂ Operand.Alike out out' := by
  unfold applyOperator at h
  split at h
  · next op b a rest =>
    obtain ⟨x, mid, hx, h⟩ := exists_of_bind_ok h
    obtain ⟨y, mid', hy, h⟩ := exists_of_bind_ok h
    cases h
    obtain ⟨b', hb, tail, htail, rfl⟩ : ∃ b', b.Alike b' ∧
      ∃ tail, List.Forall₂ Operand.Alike (a :: rest) tail ∧
        stack' = b' :: tail := by
      cases hlike with
      | cons hb htail => exact ⟨_, hb, _, htail, rfl⟩
    cases htail with
    | cons ha hrest =>
      refine ⟨_, ?_, forall₂_alike_cons hrest⟩
      exact (bind_of_ok (number_of_unit s hx ha)).trans (bind_of_ok (number_of_unit s hy hb))
  · next op a rest =>
    obtain ⟨x, mid, hx, h⟩ := exists_of_bind_ok h
    cases h
    cases hlike with
    | cons ha hrest => exact ⟨_, bind_of_ok (number_of_unit s hx ha), forall₂_alike_cons hrest⟩
  · next a rest =>
    -- there is no size to be asked for
    obtain ⟨x, mid, hx, h⟩ := exists_of_bind_ok h
    cases a <;> cases hx
  · cases h

theorem step_of_unit {stack stack' out : List Operand} {token token' : Token}
    (h : step noSize [] stack token u = .ok out u') (htoken : token.Covers token')
    (hlike : List.Forall₂ Operand.Alike stack stack') :
    ∃ out', step sizeOf b stack' token' s = .ok out' s ∧ List.Forall₂ Operand.Alike out out' := by
  rcases htoken with htoken | ⟨name, rfl⟩
  · cases htoken with
    | types r r' =>
      cases h
      exact ⟨_, rfl, .cons (.types _ _) hlike⟩
    | same token =>
      cases token with
      | number | string =>
        cases h
        exact ⟨_, rfl, forall₂_alike_cons hlike⟩
      | type r =>
        cases h
        exact ⟨_, rfl, .cons (.types _ _) hlike⟩
      | parameter name => cases h
      | operator name =>
        cases hop : Operator.ofName? name with
        | some operator =>
          simp only [step, hop] at h ⊢
          exact applyOperator_of_unit sizeOf s h hlike
        | none =>
          simp only [step, hop] at h
          cases h
  · cases h

theorem run_of_unit {stack stack' out : List Operand} {expr expr' : Expr}
    (h : run noSize [] stack expr u = .ok out u') (hexpr : List.Forall₂ Token.Covers expr expr')
    (hlike : List.Forall₂ Operand.Alike stack stack') :
    ∃ out', run sizeOf b stack' expr' s = .ok out' s ∧ List.Forall₂ Operand.Alike out out' := by
  induction hexpr generalizing stack stack' u with
  | nil =>
    cases h
    exact ⟨_, rfl, hlike⟩
  | cons htoken _ ih =>
    obtain ⟨mid, u'', hstep, hrest⟩ := exists_of_bind_ok h
    obtain ⟨mid', hstep', hmid⟩ := step_of_unit sizeOf b s hstep htoken hlike
    obtain ⟨out', hrun, hout⟩ := ih hrest hmid
    exact ⟨out', (bind_of_ok hstep').trans hrun, hout⟩

/-- **Closed arithmetic has its value whatever surrounds it.** -/
theorem evaluate_of_fold? {expr expr' : Expr} {value : Constant} (h : fold? expr = some value)
    (hexpr : List.Forall₂ Token.Covers expr expr') :
    evaluate sizeOf b expr' s = .ok (.constant value) s := by
  unfold fold? at h
  split at h
  · next found u' hrun =>
    obtain rfl := Option.some.inj h
    obtain ⟨stack, mid, hstack, hresult⟩ := exists_of_bind_ok hrun
    obtain ⟨out, hout, hlike⟩ := run_of_unit sizeOf b s hstack hexpr .nil
    rcases stack with _ | ⟨operand, _ | ⟨second, rest⟩⟩
    · cases hresult
    · cases hresult
      cases hlike with
      | cons hconstant hrest =>
        cases hrest
        cases hconstant
        exact (bind_of_ok hout).trans rfl
    · cases hresult
  · cases h

theorem fold?_of_covers {expr expr' : Expr} {value : Constant} (h : fold? expr = some value)
    (hexpr : List.Forall₂ Token.Covers expr expr') : fold? expr' = some value := by
  have hrun : evaluate noSize [] expr' () = .ok (.constant value) () :=
    evaluate_of_fold? noSize [] () h hexpr
  have hrun' : (evaluate noSize [] expr').run () = .ok (.constant value) () := hrun
  unfold fold?
  rw [hrun']

/-- Whether arithmetic is closed does not depend on the types in it. -/
theorem fold?_congr {expr expr' : Expr} (hexpr : List.Forall₂ Token.Alike expr expr') :
    fold? expr' = fold? expr := by
  cases h : fold? expr with
  | some value => exact fold?_of_covers h (hexpr.imp fun _ _ => .inl)
  | none =>
    cases h' : fold? expr' with
    | none => rfl
    | some value =>
      have hback : List.Forall₂ Token.Alike expr' expr := hexpr.flip.imp fun _ _ h => h.symm
      rw [fold?_of_covers h' (hback.imp fun _ _ => .inl)] at h
      cases h

end Expression

/-! ### Folded references -/

/-- An expression whose tokens have been folded: a constant if it is closed. -/
def foldedExpr (expr tokens : Expr) : Expr :=
  match Expression.fold? expr with
  | some value => [(Operand.constant value).token]
  | none => tokens

mutual

/-- The same reference with closed arithmetic folded. -/
def TypeRef.folded : TypeRef → TypeRef
  | ⟨.named name arguments, nullable⟩ => ⟨.named name (foldedArguments arguments), nullable⟩
  | ⟨.parameter name, nullable⟩ => ⟨.parameter name, nullable⟩
  | ⟨.inline body, nullable⟩ => ⟨.inline (foldedBody body), nullable⟩
  | ⟨.array element size, nullable⟩ =>
    ⟨.array element.folded (foldedExpr size (foldedTokens size)), nullable⟩
  | ⟨.path segments, nullable⟩ => ⟨.path (foldedSegments segments), nullable⟩

/-- Folds an argument list. -/
def foldedArguments : Option (List (List Token)) → Option (List (List Token))
  | none => none
  | some arguments => some (foldedExprs arguments)

/-- Folds each of some expressions. -/
def foldedExprs : List (List Token) → List (List Token)
  | [] => []
  | expr :: rest => foldedExpr expr (foldedTokens expr) :: foldedExprs rest

/-- Folds the types among tokens. -/
def foldedTokens : List Token → List Token
  | [] => []
  | token :: rest => foldedToken token :: foldedTokens rest

/-- Folds one token. -/
def foldedToken : Token → Token
  | .type reference => .type reference.folded
  | .number value => .number value
  | .string text => .string text
  | .parameter name => .parameter name
  | .operator name => .operator name

/-- Folds the arguments of each segment. -/
def foldedSegments : List PathSegment → List PathSegment
  | [] => []
  | ⟨name, arguments⟩ :: rest => ⟨name, foldedArguments arguments⟩ :: foldedSegments rest

/-- Folds the types of a struct's fields. -/
def foldedBody : StructBody → StructBody
  | ⟨shape, fields, locals⟩ => ⟨shape, foldedFields fields, locals⟩

/-- Folds the types of fields. -/
def foldedFields : List Field → List Field
  | [] => []
  | field :: rest => foldedField field :: foldedFields rest

/-- Folds the type of a field. -/
def foldedField : Field → Field
  | .typed key type => .typed key type.folded
  | .constant type value => .constant type.folded value
  | .literal key value => .literal key value

end

/-- An operand with closed arithmetic folded. -/
def Operand.folded : Operand → Operand
  | .constant value => .constant value
  | .type reference => .type reference.folded

@[simp]
theorem Operand.folded_constant (value : Constant) :
    (Operand.constant value).folded = .constant value := rfl

@[simp]
theorem Operand.folded_type (r : TypeRef) : (Operand.type r).folded = .type r.folded := rfl

/-- Bindings with closed arithmetic folded. -/
def Bindings.folded (bindings : Bindings) : Bindings :=
  bindings.map fun entry => (entry.1, entry.2.folded)

@[simp]
theorem TypeRef.folded_nullable (r : TypeRef) : r.folded.nullable = r.nullable := by
  obtain ⟨kind, nullable⟩ := r
  cases kind <;> simp only [TypeRef.folded]

theorem TypeRef.folded_kind (r : TypeRef) (nullable : Bool) :
    TypeRef.folded ⟨r.kind, nullable⟩ = ⟨r.folded.kind, nullable⟩ := by
  obtain ⟨kind, other⟩ := r
  cases kind <;> simp only [TypeRef.folded]

theorem foldedToken_alike (token : Token) : token.Alike (foldedToken token) := by
  cases token with
  | type r => exact .types _ _
  | number | string | parameter | operator => exact .same _

theorem foldedTokens_alike (expr : Expr) : List.Forall₂ Token.Alike expr (foldedTokens expr) := by
  induction expr with
  | nil => exact .nil
  | cons token rest ih => exact .cons (foldedToken_alike token) ih

theorem foldedTokens_eq_map (expr : Expr) : foldedTokens expr = expr.map foldedToken := by
  induction expr with
  | nil => rfl
  | cons token rest ih => rw [foldedTokens, List.map_cons, ih]

theorem fold?_constant (value : Constant) :
    Expression.fold? [(Operand.constant value).token] = some value := by
  cases value <;> rfl

theorem foldedExpr_of_fold? {expr : Expr} {value : Constant}
    (h : Expression.fold? expr = some value) (tokens : Expr) :
    foldedExpr expr tokens = [(Operand.constant value).token] := by
  rw [foldedExpr, h]

theorem foldedExpr_of_none {expr : Expr} (h : Expression.fold? expr = none) (tokens : Expr) :
    foldedExpr expr tokens = tokens := by
  rw [foldedExpr, h]

/-- What is folded stays the same if its tokens do. -/
theorem foldedExpr_folded {expr : Expr} (h : foldedTokens (foldedTokens expr) = foldedTokens expr) :
    foldedExpr (foldedExpr expr (foldedTokens expr))
      (foldedTokens (foldedExpr expr (foldedTokens expr))) =
      foldedExpr expr (foldedTokens expr) := by
  cases hfold : Expression.fold? expr with
  | some value => rw [foldedExpr_of_fold? hfold, foldedExpr_of_fold? (fold?_constant value)]
  | none =>
    rw [foldedExpr_of_none hfold, h]
    exact foldedExpr_of_none ((Expression.fold?_congr (foldedTokens_alike expr)).trans hfold) _

mutual

/-- Nothing is left to fold. -/
theorem TypeRef.folded_folded : ∀ r : TypeRef, r.folded.folded = r.folded
  | ⟨.named name arguments, nullable⟩ => by
    simp only [TypeRef.folded, foldedArguments_folded arguments]
  | ⟨.parameter name, nullable⟩ => by simp only [TypeRef.folded]
  | ⟨.inline body, nullable⟩ => by simp only [TypeRef.folded, foldedBody_folded body]
  | ⟨.array element size, nullable⟩ => by
    simp only [TypeRef.folded, element.folded_folded, foldedExpr_folded (foldedTokens_folded size)]
  | ⟨.path segments, nullable⟩ => by simp only [TypeRef.folded, foldedSegments_folded segments]

theorem foldedArguments_folded :
    ∀ arguments : Option (List (List Token)), foldedArguments (foldedArguments arguments) =
      foldedArguments arguments
  | none => by simp only [foldedArguments]
  | some arguments => by simp only [foldedArguments, foldedExprs_folded arguments]

theorem foldedExprs_folded :
    ∀ exprs : List (List Token), foldedExprs (foldedExprs exprs) = foldedExprs exprs
  | [] => by simp only [foldedExprs]
  | expr :: rest => by
    simp only [foldedExprs, foldedExpr_folded (foldedTokens_folded expr), foldedExprs_folded rest]

theorem foldedTokens_folded :
    ∀ tokens : List Token, foldedTokens (foldedTokens tokens) = foldedTokens tokens
  | [] => by simp only [foldedTokens]
  | token :: rest => by simp only [foldedTokens, foldedToken_folded token, foldedTokens_folded rest]

theorem foldedToken_folded : ∀ token : Token, foldedToken (foldedToken token) = foldedToken token
  | .type reference => by simp only [foldedToken, reference.folded_folded]
  | .number _ | .string _ | .parameter _ | .operator _ => by simp only [foldedToken]

theorem foldedSegments_folded :
    ∀ segments : List PathSegment, foldedSegments (foldedSegments segments) =
      foldedSegments segments
  | [] => by simp only [foldedSegments]
  | ⟨name, arguments⟩ :: rest => by
    simp only [foldedSegments, foldedArguments_folded arguments, foldedSegments_folded rest]

theorem foldedBody_folded : ∀ body : StructBody, foldedBody (foldedBody body) = foldedBody body
  | ⟨shape, fields, locals⟩ => by simp only [foldedBody, foldedFields_folded fields]

theorem foldedFields_folded :
    ∀ fields : List Field, foldedFields (foldedFields fields) = foldedFields fields
  | [] => by simp only [foldedFields]
  | field :: rest => by simp only [foldedFields, foldedField_folded field, foldedFields_folded rest]

theorem foldedField_folded : ∀ field : Field, foldedField (foldedField field) = foldedField field
  | .typed key type => by simp only [foldedField, type.folded_folded]
  | .constant type value => by simp only [foldedField, type.folded_folded]
  | .literal key value => by simp only [foldedField]

end

theorem Operand.folded_folded (operand : Operand) : operand.folded.folded = operand.folded := by
  cases operand with
  | constant value => rfl
  | type reference => exact congrArg Operand.type reference.folded_folded

/-! ### Folding and substitution -/

theorem Bindings.get?_folded (bindings : Bindings) (name : String) :
    bindings.folded.get? name = (bindings.get? name).map Operand.folded := by
  induction bindings with
  | nil => rfl
  | cons entry rest ih =>
    obtain ⟨key, operand⟩ := entry
    change (if key = name then some operand.folded else Assoc.get? (Bindings.folded rest) name) =
      (if key = name then some operand else Assoc.get? rest name).map Operand.folded
    split
    · rfl
    · exact ih

namespace TypeRef

variable (b : Bindings)

theorem substituteToken_alike (token : Token) :
    (substituteToken b token).Alike (substituteToken b.folded (foldedToken token)) := by
  cases token with
  | type r =>
    simp only [substituteToken, foldedToken]
    exact .types _ _
  | parameter name =>
    simp only [substituteToken, foldedToken, Bindings.get?_folded]
    cases b.get? name with
    | none => exact .same _
    | some operand =>
      rcases operand with ⟨value | text⟩ | r
      · exact .same _
      · exact .same _
      · exact .types _ _
  | number | string | operator => simp only [substituteToken, foldedToken]; exact .same _

theorem substituteExpr_eq_map (expr : Expr) :
    substituteExpr b expr = expr.map (substituteToken b) := by
  induction expr with
  | nil => simp only [substituteExpr, List.map_nil]
  | cons token rest ih => rw [substituteExpr, List.map_cons, ih]

/-- Closed arithmetic has no parameters. -/
theorem substituteExpr_covers (expr : Expr) :
    List.Forall₂ Token.Covers expr (substituteExpr b expr) := by
  rw [substituteExpr_eq_map]
  refine List.forall₂_map_right_iff.2 (List.forall₂_same.2 fun token _ => ?_)
  cases token with
  | parameter name => exact Or.inr ⟨name, rfl⟩
  | type r =>
    simp only [substituteToken]
    exact Or.inl (.types _ _)
  | number | string | operator =>
    simp only [substituteToken]
    exact Or.inl (.same _)

/-- Folding after a substitution makes folding before it needless, if this is so of the tokens. -/
theorem foldedExpr_substitute {expr : Expr}
    (h : foldedTokens (substituteExpr b.folded (foldedTokens expr)) =
      foldedTokens (substituteExpr b expr)) :
    foldedExpr (substituteExpr b.folded (foldedExpr expr (foldedTokens expr)))
        (foldedTokens (substituteExpr b.folded (foldedExpr expr (foldedTokens expr)))) =
      foldedExpr (substituteExpr b expr) (foldedTokens (substituteExpr b expr)) := by
  cases hfold : Expression.fold? expr with
  | some value =>
    have hconstant : substituteExpr b.folded [(Operand.constant value).token] =
        [(Operand.constant value).token] := by
      cases value <;> simp only [Operand.token, substituteExpr, substituteToken]
    rw [foldedExpr_of_fold? hfold, hconstant, foldedExpr_of_fold? (fold?_constant value),
      foldedExpr_of_fold? (Expression.fold?_of_covers hfold (substituteExpr_covers b expr))]
  | none =>
    have hsame : Expression.fold? (substituteExpr b.folded (foldedTokens expr)) =
        Expression.fold? (substituteExpr b expr) := by
      refine Expression.fold?_congr ?_
      rw [substituteExpr_eq_map, substituteExpr_eq_map, foldedTokens_eq_map, List.map_map]
      exact List.forall₂_map_left_iff.2
        (List.forall₂_map_right_iff.2
          (List.forall₂_same.2 fun token _ => substituteToken_alike b token))
    rw [foldedExpr_of_none hfold, foldedExpr, foldedExpr, hsame, h]

mutual

/-- **Folding after a substitution makes folding before it needless.** -/
theorem folded_substitute :
    ∀ r : TypeRef, (r.folded.substitute b.folded).folded = (r.substitute b).folded
  | ⟨.parameter name, nullable⟩ => by
    simp only [folded, substitute, Bindings.get?_folded]
    rcases b.get? name with _ | ⟨_ | r⟩
    · rfl
    · rfl
    · simp only [Option.map_some, Operand.folded, folded_kind, folded_folded, folded_nullable]
  | ⟨.named name arguments, nullable⟩ => by
    simp only [folded, substitute, foldedArguments_substitute arguments]
  | ⟨.inline body, nullable⟩ => by simp only [folded, substitute, foldedBody_substitute body]
  | ⟨.array element size, nullable⟩ => by
    simp only [folded, substitute, folded_substitute element,
      foldedExpr_substitute b (foldedTokens_substitute size)]
  | ⟨.path segments, nullable⟩ => by
    simp only [folded, substitute, foldedSegments_substitute segments]

theorem foldedArguments_substitute : ∀ arguments : Option (List (List Token)),
    foldedArguments (substituteArguments b.folded (foldedArguments arguments)) =
      foldedArguments (substituteArguments b arguments)
  | none => by simp only [foldedArguments, substituteArguments]
  | some arguments => by
    simp only [foldedArguments, substituteArguments, foldedExprs_substitute arguments]

theorem foldedExprs_substitute : ∀ exprs : List (List Token),
    foldedExprs (substituteExprs b.folded (foldedExprs exprs)) =
      foldedExprs (substituteExprs b exprs)
  | [] => by simp only [foldedExprs, substituteExprs]
  | expr :: rest => by
    simp only [foldedExprs, substituteExprs, foldedExpr_substitute b (foldedTokens_substitute expr),
      foldedExprs_substitute rest]

theorem foldedTokens_substitute : ∀ tokens : List Token,
    foldedTokens (substituteExpr b.folded (foldedTokens tokens)) =
      foldedTokens (substituteExpr b tokens)
  | [] => by simp only [foldedTokens, substituteExpr]
  | token :: rest => by
    simp only [foldedTokens, substituteExpr, foldedToken_substitute token,
      foldedTokens_substitute rest]

theorem foldedToken_substitute : ∀ token : Token,
    foldedToken (substituteToken b.folded (foldedToken token)) =
      foldedToken (substituteToken b token)
  | .type reference => by simp only [foldedToken, substituteToken, folded_substitute reference]
  | .parameter name => by
    simp only [foldedToken, substituteToken, Bindings.get?_folded]
    rcases b.get? name with _ | ⟨⟨_ | _⟩ | r⟩
    · rfl
    · rfl
    · rfl
    · simp only [Option.map_some, Operand.folded, Operand.token, foldedToken, folded_folded]
  | .number _ | .string _ | .operator _ => by simp only [foldedToken, substituteToken]

theorem foldedSegments_substitute : ∀ segments : List PathSegment,
    foldedSegments (substituteSegments b.folded (foldedSegments segments)) =
      foldedSegments (substituteSegments b segments)
  | [] => by simp only [foldedSegments, substituteSegments]
  | ⟨name, arguments⟩ :: rest => by
    simp only [foldedSegments, substituteSegments, foldedArguments_substitute arguments,
      foldedSegments_substitute rest]

theorem foldedBody_substitute : ∀ body : StructBody,
    foldedBody (substituteBody b.folded (foldedBody body)) = foldedBody (substituteBody b body)
  | ⟨shape, fields, locals⟩ => by
    simp only [foldedBody, substituteBody, foldedFields_substitute fields]

theorem foldedFields_substitute : ∀ fields : List Field,
    foldedFields (substituteFields b.folded (foldedFields fields)) =
      foldedFields (substituteFields b fields)
  | [] => by simp only [foldedFields, substituteFields]
  | field :: rest => by
    simp only [foldedFields, substituteFields, foldedField_substitute field,
      foldedFields_substitute rest]

theorem foldedField_substitute : ∀ field : Field,
    foldedField (substituteField b.folded (foldedField field)) =
      foldedField (substituteField b field)
  | .typed key type => by simp only [foldedField, substituteField, folded_substitute type]
  | .constant type value => by simp only [foldedField, substituteField, folded_substitute type]
  | .literal key value => by simp only [foldedField, substituteField]

end

end TypeRef

/-! ### Texts -/

/-- The text of a folded expression. -/
theorem exprChars?_folded {expr : Expr}
    (h : TypeRef.tokensChars? (foldedTokens expr) = TypeRef.tokensChars? expr) :
    exprChars? (foldedExpr expr (foldedTokens expr))
      (TypeRef.tokensChars? (foldedExpr expr (foldedTokens expr))) =
      exprChars? expr (TypeRef.tokensChars? expr) := by
  cases hfold : Expression.fold? expr with
  | some value =>
    rw [foldedExpr_of_fold? hfold]
    simp only [exprChars?, hfold, fold?_constant]
  | none =>
    rw [foldedExpr_of_none hfold, h]
    simp only [exprChars?, Expression.fold?_congr (foldedTokens_alike expr)]

namespace TypeRef

mutual

/-- **The text of a folded reference.** -/
theorem canonicalChars?_folded : ∀ r : TypeRef, canonicalChars? r.folded = canonicalChars? r
  | ⟨.named name arguments, _⟩ => by
    simp only [folded, canonicalChars?, segmentChars?_folded name arguments]
  | ⟨.parameter _, _⟩ => by simp only [folded]
  | ⟨.inline _, _⟩ => by simp only [folded, canonicalChars?]
  | ⟨.array element size, _⟩ => by
    simp only [folded, canonicalChars?, canonicalChars?_folded element,
      exprChars?_folded (tokensChars?_folded size)]
  | ⟨.path segments, _⟩ => by simp only [folded, canonicalChars?, segmentsChars?_folded segments]

theorem segmentChars?_folded (name : String) : ∀ arguments : Option (List (List Token)),
    segmentChars? name (foldedArguments arguments) = segmentChars? name arguments
  | none => by simp only [foldedArguments]
  | some arguments => by simp only [foldedArguments, segmentChars?, exprsChars?_folded arguments]

theorem segmentsChars?_folded : ∀ segments : List PathSegment,
    segmentsChars? (foldedSegments segments) = segmentsChars? segments
  | [] => by simp only [foldedSegments]
  | ⟨name, arguments⟩ :: rest => by
    simp only [foldedSegments, segmentsChars?, segmentChars?_folded name arguments,
      segmentsChars?_folded rest]

theorem exprsChars?_folded :
    ∀ exprs : List (List Token), exprsChars? (foldedExprs exprs) = exprsChars? exprs
  | [] => by simp only [foldedExprs]
  | expr :: rest => by
    simp only [foldedExprs, exprsChars?, exprChars?_folded (tokensChars?_folded expr),
      exprsChars?_folded rest]

theorem tokensChars?_folded : ∀ tokens : List Token,
    tokensChars? (foldedTokens tokens) = tokensChars? tokens
  | [] => by simp only [foldedTokens]
  | token :: rest => by
    simp only [foldedTokens, tokensChars?, tokenChars?_folded token, tokensChars?_folded rest]

theorem tokenChars?_folded : ∀ token : Token, tokenChars? (foldedToken token) = tokenChars? token
  | .type reference => by simp only [foldedToken, tokenChars?, canonicalChars?_folded reference]
  | .number _ | .string _ | .parameter _ | .operator _ => by simp only [foldedToken]

end

end TypeRef

/-- An instance is known by the same text if its arguments are folded. -/
theorem instanceKey?_folded (name : String) (arguments : List Operand) :
    instanceKey? name (arguments.map Operand.folded) = instanceKey? name arguments := by
  have hchars : ∀ operand : Operand, operand.folded.chars? = operand.chars? := by
    rintro (value | r)
    · rfl
    · exact r.canonicalChars?_folded
  have htexts : (arguments.map Operand.folded).mapM Operand.chars? =
      arguments.mapM Operand.chars? := by
    induction arguments with
    | nil => rfl
    | cons operand rest ih => rw [List.map_cons, List.mapM_cons, List.mapM_cons, hchars, ih]
  cases arguments with
  | nil => rfl
  | cons operand rest =>
    rw [List.map_cons] at htexts ⊢
    simp only [instanceKey?, htexts]

end Wireform
