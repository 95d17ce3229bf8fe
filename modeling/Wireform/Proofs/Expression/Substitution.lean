import Wireform.Proofs.Expression.Kinds

/-!
# Putting arguments in again and again

A reference that is resolved has its arguments put in, and then so do its parts, one after
the other. Without bindings nothing changes, so what is taken apart becomes smaller. Under
bindings an expression may grow without end; but a type that is bound has no parameter in
the place of a type, so that what stands in such places is there from the first time on.

* `TypeRef.parts`, `TypeRef.exprs`: what a reference is taken apart into.
* `TypeRef.substitute_nil`: without bindings nothing changes.
* `TypeRef.weight_substitute`: what has been put in once does not gain weight any more.
-/

namespace Wireform

/-- The type of a field, if it has one. -/
def Field.type? : Field → Option TypeRef
  | .typed _ type | .constant type _ => some type
  | .literal _ _ => none

namespace TypeRef

/-- The references in a reference that stand in the place of types. -/
def parts : TypeRef → List TypeRef
  | ⟨.array element _, _⟩ => [element]
  | ⟨.inline body, _⟩ => body.fields.filterMap Field.type?
  | _ => []

/-- The expressions in a reference. -/
def exprs : TypeRef → List Expr
  | ⟨.array _ size, _⟩ => [size]
  | ⟨.named _ arguments, _⟩ => arguments.getD []
  | ⟨.path segments, _⟩ => segments.flatMap fun segment => segment.arguments.getD []
  | _ => []

/-! ### Sizes -/

theorem sizeOf_lt_of_mem_parts {r part : TypeRef} (h : part ∈ r.parts) :
    sizeOf part < sizeOf r := by
  obtain ⟨kind, nullable⟩ := r
  cases kind with
  | array element size =>
    obtain rfl := List.mem_singleton.1 h
    simp
    omega
  | inline body =>
    obtain ⟨field, hfield, htype⟩ := List.mem_filterMap.1 h
    have hlt := List.sizeOf_lt_of_mem hfield
    obtain ⟨shape, fields, locals⟩ := body
    cases field with
    | typed key type | constant type value =>
      obtain rfl := Option.some.inj htype
      simp at hlt ⊢
      omega
    | literal => cases htype
  | named | parameter | path => cases h

theorem sizeOf_lt_of_mem_expr {r q : TypeRef} {expr : Expr} (h : expr ∈ r.exprs)
    (hq : .type q ∈ expr) :
    sizeOf q < sizeOf r := by
  have hlt := List.sizeOf_lt_of_mem hq
  simp only [Token.type.sizeOf_spec] at hlt
  obtain ⟨kind, nullable⟩ := r
  cases kind with
  | array element size =>
    obtain rfl := List.mem_singleton.1 h
    simp
    omega
  | named name arguments =>
    cases arguments with
    | none => cases h
    | some arguments =>
      have hexpr := List.sizeOf_lt_of_mem (show expr ∈ arguments from h)
      simp
      omega
  | path segments =>
    obtain ⟨⟨name, arguments⟩, hsegment, hexpr⟩ := List.mem_flatMap.1 h
    have hsegment := List.sizeOf_lt_of_mem hsegment
    cases arguments with
    | none => cases hexpr
    | some arguments =>
      have hexpr := List.sizeOf_lt_of_mem (show expr ∈ arguments from hexpr)
      simp at hsegment ⊢
      omega
  | inline | parameter => cases h

/-! ### No bindings -/

mutual

/-- Without bindings nothing changes. -/
theorem substitute_nil : ∀ r : TypeRef, r.substitute [] = r
  | ⟨.parameter _, _⟩ => rfl
  | ⟨.named name arguments, nullable⟩ => by
    rw [substitute, substituteArguments_nil arguments]
  | ⟨.inline body, nullable⟩ => by
    rw [substitute, substituteBody_nil body]
  | ⟨.array element size, nullable⟩ => by
    rw [substitute, substitute_nil element, substituteExpr_nil size]
  | ⟨.path segments, nullable⟩ => by
    rw [substitute, substituteSegments_nil segments]

theorem substituteArguments_nil :
    ∀ arguments : Option (List (List Token)), substituteArguments [] arguments = arguments
  | none => rfl
  | some arguments => congrArg some (substituteExprs_nil arguments)

theorem substituteExprs_nil : ∀ exprs : List (List Token), substituteExprs [] exprs = exprs
  | [] => rfl
  | expr :: rest => congrArg₂ List.cons (substituteExpr_nil expr) (substituteExprs_nil rest)

theorem substituteExpr_nil : ∀ expr : List Token, substituteExpr [] expr = expr
  | [] => rfl
  | token :: rest => congrArg₂ List.cons (substituteToken_nil token) (substituteExpr_nil rest)

theorem substituteToken_nil : ∀ token : Token, substituteToken [] token = token
  | .type reference => congrArg Token.type (substitute_nil reference)
  | .number _ | .string _ | .parameter _ | .operator _ => rfl

theorem substituteSegments_nil :
    ∀ segments : List PathSegment, substituteSegments [] segments = segments
  | [] => rfl
  | ⟨name, arguments⟩ :: rest => by
    rw [substituteSegments, substituteArguments_nil arguments, substituteSegments_nil rest]

theorem substituteBody_nil : ∀ body : StructBody, substituteBody [] body = body
  | ⟨_, fields, _⟩ => by rw [substituteBody, substituteFields_nil fields]

theorem substituteFields_nil : ∀ fields : List Field, substituteFields [] fields = fields
  | [] => rfl
  | field :: rest => congrArg₂ List.cons (substituteField_nil field) (substituteFields_nil rest)

theorem substituteField_nil : ∀ field : Field, substituteField [] field = field
  | .typed key type => congrArg (Field.typed key) (substitute_nil type)
  | .constant type value => congrArg (Field.constant · value) (substitute_nil type)
  | .literal _ _ => rfl

end

/-! ### Weights -/

mutual

/-- How deep the parts of a reference lie inside each other, all taken together. -/
def weight : TypeRef → ℕ
  | ⟨.array element _, _⟩ => element.weight + 1
  | ⟨.inline body, _⟩ => bodyWeight body + 1
  | ⟨.named _ _, _⟩ | ⟨.parameter _, _⟩ | ⟨.path _, _⟩ => 1

/-- The weight of a struct. -/
def bodyWeight : StructBody → ℕ
  | ⟨_, fields, _⟩ => fieldsWeight fields

/-- The weight of some fields. -/
def fieldsWeight : List Field → ℕ
  | [] => 0
  | field :: rest => fieldWeight field + fieldsWeight rest

/-- The weight of a field. -/
def fieldWeight : Field → ℕ
  | .typed _ type | .constant type _ => type.weight
  | .literal _ _ => 0

end

theorem weight_le_of_mem {part : TypeRef} {fields : List Field}
    (h : part ∈ fields.filterMap Field.type?) :
    part.weight ≤ fieldsWeight fields := by
  induction fields with
  | nil => cases h
  | cons field rest ih =>
    rw [List.filterMap_cons] at h
    rw [fieldsWeight]
    cases field with
    | typed key type | constant type value =>
      rcases List.mem_cons.1 h with rfl | h
      · exact Nat.le_add_right _ _
      · exact Nat.le_trans (ih h) (Nat.le_add_left _ _)
    | literal => exact Nat.le_trans (ih h) (Nat.le_add_left _ _)

theorem weight_lt_of_mem_parts {r part : TypeRef} (h : part ∈ r.parts) :
    part.weight < r.weight := by
  obtain ⟨kind, nullable⟩ := r
  cases kind with
  | array element size =>
    obtain rfl := List.mem_singleton.1 h
    exact Nat.lt_succ_self _
  | inline body =>
    obtain ⟨shape, fields, locals⟩ := body
    exact Nat.lt_succ_of_le (weight_le_of_mem h)
  | named | parameter | path => cases h

variable (bindings : Bindings)

mutual

/-- No parameter that is bound to a type stands in the place of a type. -/
def IsFixed : TypeRef → Prop
  | ⟨.parameter name, _⟩ => ∀ r, bindings.get? name ≠ some (.type r)
  | ⟨.array element _, _⟩ => element.IsFixed
  | ⟨.inline body, _⟩ => BodyIsFixed body
  | ⟨.named _ _, _⟩ | ⟨.path _, _⟩ => True

/-- The same for the fields of a struct. -/
def BodyIsFixed : StructBody → Prop
  | ⟨_, fields, _⟩ => FieldsAreFixed fields

/-- The same for some fields. -/
def FieldsAreFixed : List Field → Prop
  | [] => True
  | field :: rest => FieldIsFixed field ∧ FieldsAreFixed rest

/-- The same for a field. -/
def FieldIsFixed : Field → Prop
  | .typed _ type | .constant type _ => type.IsFixed
  | .literal _ _ => True

end

variable {bindings}

theorem isFixed_of_mem {part : TypeRef} {fields : List Field}
    (h : part ∈ fields.filterMap Field.type?) (hfields : FieldsAreFixed bindings fields) :
    part.IsFixed bindings := by
  induction fields with
  | nil => cases h
  | cons field rest ih =>
    rw [List.filterMap_cons] at h
    obtain ⟨hfield, hrest⟩ := hfields
    cases field with
    | typed key type | constant type value =>
      rcases List.mem_cons.1 h with rfl | h
      · exact hfield
      · exact ih h hrest
    | literal => exact ih h hrest

theorem IsFixed.of_mem_parts {r part : TypeRef} (hr : r.IsFixed bindings) (h : part ∈ r.parts) :
    part.IsFixed bindings := by
  obtain ⟨kind, nullable⟩ := r
  cases kind with
  | array element size =>
    obtain rfl := List.mem_singleton.1 h
    exact hr
  | inline body =>
    obtain ⟨shape, fields, locals⟩ := body
    exact isFixed_of_mem h hr
  | named | parameter | path => cases h

mutual

theorem weight_substitute : ∀ r : TypeRef, r.IsFixed bindings →
    (r.substitute bindings).weight = r.weight
  | ⟨.parameter name, nullable⟩, h => by
    rw [substitute]
    split
    · next bound hbound => exact absurd hbound (h bound)
    · rfl
  | ⟨.named _ _, _⟩, _ | ⟨.path _, _⟩, _ => rfl
  | ⟨.inline ⟨_, fields, _⟩, _⟩, h => congrArg (· + 1) (fieldsWeight_substitute fields h)
  | ⟨.array element _, _⟩, h => congrArg (· + 1) (weight_substitute element h)

theorem fieldsWeight_substitute : ∀ fields : List Field, FieldsAreFixed bindings fields →
    fieldsWeight (substituteFields bindings fields) = fieldsWeight fields
  | [], _ => rfl
  | .typed _ type :: rest, h | .constant type _ :: rest, h =>
    congrArg₂ (· + ·) (weight_substitute type h.1) (fieldsWeight_substitute rest h.2)
  | .literal _ _ :: rest, h => congrArg (0 + ·) (fieldsWeight_substitute rest h.2)

end

variable {kinds : Kinds} {names : List String}

mutual

/-- An argument without names has no parameter in the place of a type that is bound to anything. -/
theorem isFixed_of_fits (hb : Binds kinds names bindings) :
    ∀ r : TypeRef, r.fits kinds [] true = true → r.IsFixed bindings
  | ⟨.parameter name, nullable⟩, h => by
    simp only [fits, Bool.not_true, Bool.false_or] at h
    intro r hr
    cases (hb.get?_eq_none_of_allows h).symm.trans hr
  | ⟨.named _ _, _⟩, _ | ⟨.path _, _⟩, _ => trivial
  | ⟨.inline ⟨_, fields, _⟩, _⟩, h => by
    simp only [fits, fitsBody, Bool.and_eq_true] at h
    exact fieldsAreFixed_of_fits hb fields h.1
  | ⟨.array element _, _⟩, h => by
    simp only [fits, Bool.and_eq_true] at h
    exact isFixed_of_fits hb element h.1

theorem fieldsAreFixed_of_fits (hb : Binds kinds names bindings) :
    ∀ fields : List Field, fitsFields kinds [] true fields = true → FieldsAreFixed bindings fields
  | [], _ => trivial
  | .typed _ type :: rest, h | .constant type _ :: rest, h => by
    simp only [fitsFields, fitsField, Bool.and_eq_true] at h
    exact ⟨isFixed_of_fits hb type h.1, fieldsAreFixed_of_fits hb rest h.2⟩
  | .literal _ _ :: rest, h => by
    simp only [fitsFields, fitsField, Bool.true_and] at h
    exact ⟨trivial, fieldsAreFixed_of_fits hb rest h⟩

end

theorem isFixed_kind (r : TypeRef) (nullable : Bool) (h : r.IsFixed bindings) :
    (⟨r.kind, nullable⟩ : TypeRef).IsFixed bindings := by
  obtain ⟨kind, _⟩ := r
  cases kind <;> exact h

mutual

/-- Once arguments are put in, only parameters that are not bound to types are left in the place of
types. -/
theorem isFixed_substitute (hb : Binds kinds names bindings) :
    ∀ r : TypeRef, (r.substitute bindings).IsFixed bindings
  | ⟨.parameter name, nullable⟩ => by
    rw [substitute]
    split
    · next bound hbound =>
      exact isFixed_kind bound _ (isFixed_of_fits hb bound (hb.fits name _ hbound bound rfl))
    · next hunbound => exact fun bound hbound => hunbound bound hbound
  | ⟨.named _ _, _⟩ | ⟨.path _, _⟩ => trivial
  | ⟨.inline ⟨_, fields, _⟩, _⟩ => fieldsAreFixed_substitute hb fields
  | ⟨.array element _, _⟩ => isFixed_substitute hb element

theorem fieldsAreFixed_substitute (hb : Binds kinds names bindings) :
    ∀ fields : List Field, FieldsAreFixed bindings (substituteFields bindings fields)
  | [] => trivial
  | .typed _ type :: rest | .constant type _ :: rest =>
    ⟨isFixed_substitute hb type, fieldsAreFixed_substitute hb rest⟩
  | .literal _ _ :: rest => ⟨trivial, fieldsAreFixed_substitute hb rest⟩

end

/-! ### What fits, taken apart -/

theorem fits_of_mem {argument : Bool} {part : TypeRef} {fields : List Field}
    (h : part ∈ fields.filterMap Field.type?)
    (hfields : fitsFields kinds names argument fields = true) :
    part.fits kinds names argument = true := by
  induction fields with
  | nil => cases h
  | cons field rest ih =>
    rw [List.filterMap_cons] at h
    simp only [fitsFields, Bool.and_eq_true] at hfields
    cases field with
    | typed key type | constant type value =>
      rcases List.mem_cons.1 h with rfl | h
      · exact hfields.1
      · exact ih h hfields.2
    | literal => exact ih h hfields.2

theorem fits_of_mem_parts {argument : Bool} {r part : TypeRef}
    (hr : r.fits kinds names argument = true) (h : part ∈ r.parts) :
    part.fits kinds names argument = true := by
  obtain ⟨kind, nullable⟩ := r
  cases kind with
  | array element size =>
    obtain rfl := List.mem_singleton.1 h
    simp only [fits, Bool.and_eq_true] at hr
    exact hr.1
  | inline body =>
    obtain ⟨shape, fields, locals⟩ := body
    simp only [fits, fitsBody, Bool.and_eq_true] at hr
    exact fits_of_mem h hr.1
  | named | parameter | path => cases h

theorem fits_of_mem_fitsExpr {expr : Expr} {q : TypeRef} (hexpr : fitsExpr kinds names expr = true)
    (hq : .type q ∈ expr) : q.fits kinds names true = true := by
  induction expr with
  | nil => cases hq
  | cons token rest ih =>
    simp only [fitsExpr, Bool.and_eq_true] at hexpr
    rcases List.mem_cons.1 hq with rfl | hq
    · exact hexpr.1
    · exact ih hexpr.2 hq

theorem fitsExpr_of_mem {template : String} {position : ℕ} {list : List Expr} {expr : Expr}
    (hlist : fitsExprs kinds names template position list = true) (h : expr ∈ list) :
    fitsExpr kinds names expr = true := by
  induction list generalizing position with
  | nil => cases h
  | cons first rest ih =>
    simp only [fitsExprs, Bool.and_eq_true] at hlist
    rcases List.mem_cons.1 h with rfl | h
    · exact hlist.1.1
    · exact ih hlist.2 h

theorem fitsExpr_of_mem_arguments {template : String} {arguments : Option (List Expr)} {expr : Expr}
    (harguments : fitsArguments kinds names template arguments = true)
    (h : expr ∈ arguments.getD []) :
    fitsExpr kinds names expr = true := by
  cases arguments with
  | none => cases h
  | some list => exact fitsExpr_of_mem harguments h

theorem fitsArguments_of_mem {segments : List PathSegment} {segment : PathSegment}
    (hsegments : fitsSegments kinds names segments = true) (h : segment ∈ segments) :
    fitsArguments kinds names segment.name segment.arguments = true := by
  induction segments with
  | nil => cases h
  | cons first rest ih =>
    obtain ⟨name, arguments⟩ := first
    simp only [fitsSegments, Bool.and_eq_true] at hsegments
    rcases List.mem_cons.1 h with rfl | h
    · exact hsegments.1
    · exact ih hsegments.2 h

theorem fitsExpr_of_mem_exprs {argument : Bool} {r : TypeRef} {expr : Expr}
    (hr : r.fits kinds names argument = true) (h : expr ∈ r.exprs) :
    fitsExpr kinds names expr = true := by
  obtain ⟨kind, nullable⟩ := r
  cases kind with
  | array element size =>
    obtain rfl := List.mem_singleton.1 h
    simp only [fits, Bool.and_eq_true] at hr
    exact hr.2
  | named name arguments => exact fitsExpr_of_mem_arguments hr h
  | path segments =>
    obtain ⟨segment, hsegment, h⟩ := List.mem_flatMap.1 h
    exact fitsExpr_of_mem_arguments (fitsArguments_of_mem hr hsegment) h
  | inline | parameter => cases h

end TypeRef

end Wireform
