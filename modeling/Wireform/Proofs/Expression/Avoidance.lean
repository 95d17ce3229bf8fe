import Wireform.Proofs.Expression.Substitution

/-!
# Parameters that do not occur

Bindings put their arguments in the place of parameters, everywhere but in the definitions that are
local to an inline struct. If these do not ask for any of the parameters either, no occurrence is
left. A parameter of a template that is defined there is another one, even if it has the same name.
Only in the place of a type inside an argument it may not have it: the argument leaves the template,
and with it a parameter that is bound to a constant, which is not put in there.

* `TypeRef.avoids`: none of the parameters that some bindings replace occurs, local definitions
  included.
* `TypeRef.substitute_congr`: other bindings do the same to such a reference if they agree
  on all other parameters.
* `TypeRef.avoidsIn_substitute`: **substitution leaves no occurrence.**
-/

namespace Wireform

/-- The type that an operand is. -/
def Operand.type? : Operand → Option TypeRef
  | .constant _ => none
  | .type reference => some reference

/-- The type that is bound to a parameter. -/
def Bindings.type? (b : Bindings) (name : String) : Option TypeRef :=
  (b.get? name).bind Operand.type?

section Avoids

variable (b : Bindings)

/-- A name that is not replaced in the place of a type, or that is a template's own. -/
def Bindings.sparesType (own : List String) (name : String) : Bool :=
  (b.type? name).isNone || own.contains name

/-- A name that is not replaced in an expression, or that is a template's own. -/
def Bindings.spares (own : List String) (name : String) : Bool :=
  (b.get? name).isNone || own.contains name

mutual

/-- None of the parameters occurs that the bindings replace: in the place of a type those that are
bound to types, in an expression all that are bound. The names are those of a template's own
parameters, in the place of a type and in expressions. Only definitions that are local to inline
structs are looked at unless it is to hold everywhere. -/
def TypeRef.avoidsIn (everywhere : Bool) (types operands : List String) : TypeRef → Bool
  | ⟨.parameter name, _⟩ => !everywhere || b.sparesType types name
  | ⟨.named _ arguments, _⟩ => argumentsAvoid everywhere operands arguments
  | ⟨.inline body, _⟩ => bodyAvoids everywhere types operands body
  | ⟨.array element size, _⟩ =>
    element.avoidsIn everywhere types operands && exprAvoids everywhere operands size
  | ⟨.path segments, _⟩ => segmentsAvoid everywhere operands segments

/-- In an argument list. -/
def argumentsAvoid (everywhere : Bool) (operands : List String) : Option (List (List Token)) → Bool
  | none => true
  | some arguments => exprsAvoid everywhere operands arguments

/-- In each of some expressions. -/
def exprsAvoid (everywhere : Bool) (operands : List String) : List (List Token) → Bool
  | [] => true
  | expr :: rest => exprAvoids everywhere operands expr && exprsAvoid everywhere operands rest

/-- In an expression. -/
def exprAvoids (everywhere : Bool) (operands : List String) : List Token → Bool
  | [] => true
  | token :: rest => tokenAvoids everywhere operands token && exprAvoids everywhere operands rest

/-- In a token. -/
def tokenAvoids (everywhere : Bool) (operands : List String) : Token → Bool
  | .parameter name => !everywhere || b.spares operands name
  | .type reference => reference.avoidsIn everywhere [] operands
  | .number _ | .string _ | .operator _ => true

/-- In a path. -/
def segmentsAvoid (everywhere : Bool) (operands : List String) : List PathSegment → Bool
  | [] => true
  | ⟨_, arguments⟩ :: rest =>
    argumentsAvoid everywhere operands arguments && segmentsAvoid everywhere operands rest

/-- In a struct. -/
def bodyAvoids (everywhere : Bool) (types operands : List String) : StructBody → Bool
  | ⟨_, fields, locals⟩ =>
    fieldsAvoid everywhere types operands fields && definitionsAvoid types locals

/-- In each of some fields. -/
def fieldsAvoid (everywhere : Bool) (types operands : List String) : List Field → Bool
  | [] => true
  | field :: rest =>
    fieldAvoids everywhere types operands field && fieldsAvoid everywhere types operands rest

/-- In a field. -/
def fieldAvoids (everywhere : Bool) (types operands : List String) : Field → Bool
  | .typed _ type | .constant type _ => type.avoidsIn everywhere types operands
  | .literal _ _ => true

/-- In definitions. -/
def definitionsAvoid (own : List String) : List (String × Definition) → Bool
  | [] => true
  | (_, definition) :: rest => definitionAvoids own definition && definitionsAvoid own rest

/-- In a definition. -/
def definitionAvoids (own : List String) : Definition → Bool
  | .struct body => bodyAvoids true own own body
  | .enum ⟨_, tag, _, _, locals⟩ => tagAvoids own tag && definitionsAvoid own locals
  | .synonym target => target.avoidsIn true own own
  | .template parameters body => definitionAvoids (parameters ++ own) body

/-- In the type of a tag. -/
def tagAvoids (own : List String) : Option TypeRef → Bool
  | none => true
  | some tag => tag.avoidsIn true own own

end

/-- None of the parameters occurs that the bindings replace. -/
def TypeRef.avoids (r : TypeRef) : Bool := r.avoidsIn b true [] []

/-- None of them occurs in a definition that is local to an inline struct. -/
def TypeRef.localsAvoid (r : TypeRef) : Bool := r.avoidsIn b false [] []

/-- None of them occurs in an argument. -/
def Operand.avoids : Operand → Bool
  | .constant _ => true
  | .type reference => reference.avoids b

end Avoids

variable {b x y : Bindings} {own : List String}

theorem Operand.avoids_of_type? {operand : Operand} {type : TypeRef} (h : operand.avoids b = true)
    (htype : operand.type? = some type) : type.avoids b = true := by
  cases operand with
  | constant => cases htype
  | type =>
    obtain rfl := Option.some.inj htype
    exact h

theorem Operand.avoids_token {operand : Operand} (h : operand.avoids b = true) :
    tokenAvoids b true [] operand.token = true := by
  cases operand with
  | constant value => cases value <;> rfl
  | type => exact h

theorem definitionAvoids_of_mem {definitions : List (String × Definition)}
    (h : definitionsAvoid b own definitions = true) {name : String} {definition : Definition}
    (hmem : (name, definition) ∈ definitions) : definitionAvoids b own definition = true := by
  induction definitions with
  | nil => cases hmem
  | cons entry rest ih =>
    obtain ⟨other, first⟩ := entry
    rw [definitionsAvoid, Bool.and_eq_true] at h
    rcases List.mem_cons.1 hmem with heq | hmem
    · exact (Prod.mk.inj heq).2 ▸ h.1
    · exact ih h.2 hmem

namespace Definition

/-- A definition that avoids them has local definitions that do. -/
theorem locals_avoid {definition : Definition} (h : definitionAvoids b own definition = true)
    {locals : Assoc Definition} (hlocals : definition.locals? = some locals) :
    definitionsAvoid b own locals = true := by
  cases definition with
  | struct body =>
    obtain ⟨shape, fields, inner⟩ := body
    rw [definitionAvoids, bodyAvoids, Bool.and_eq_true] at h
    rw [locals?] at hlocals
    split at hlocals
    · cases hlocals
    · obtain rfl := Option.some.inj hlocals
      exact h.2
  | enum body =>
    obtain ⟨shape, tag, target, entries, inner⟩ := body
    rw [definitionAvoids, Bool.and_eq_true] at h
    obtain rfl := Option.some.inj hlocals
    exact h.2
  | synonym | template => cases hlocals

end Definition

/-! ### More parameters of templates -/

namespace Bindings

variable {own' : List String}

theorem sparesType_mono (h : own ⊆ own') {name : String} (hname : b.sparesType own name = true) :
    b.sparesType own' name = true := by
  unfold sparesType at *
  rw [Bool.or_eq_true, List.contains_iff_mem] at *
  exact hname.imp_right fun hmem => h hmem

theorem spares_mono (h : own ⊆ own') {name : String} (hname : b.spares own name = true) :
    b.spares own' name = true := by
  unfold spares at *
  rw [Bool.or_eq_true, List.contains_iff_mem] at *
  exact hname.imp_right fun hmem => h hmem

end Bindings

mutual

/-- More names of own parameters leave less to be avoided. -/
theorem TypeRef.avoidsIn_mono :
    ∀ (r : TypeRef) {types types' operands operands' : List String}, types ⊆ types' →
    operands ⊆ operands' → r.avoidsIn b true types operands = true →
      r.avoidsIn b true types' operands' = true
  | ⟨.parameter name, _⟩, _, _, _, _, ht, _, hr => by
    rw [TypeRef.avoidsIn, Bool.or_eq_true] at hr ⊢
    exact hr.imp_right (Bindings.sparesType_mono ht)
  | ⟨.named _ arguments, _⟩, _, _, _, _, _, ho, hr => by
    rw [TypeRef.avoidsIn] at hr ⊢
    exact argumentsAvoid_mono arguments ho hr
  | ⟨.inline body, _⟩, _, _, _, _, ht, ho, hr => by
    rw [TypeRef.avoidsIn] at hr ⊢
    exact bodyAvoids_mono body ht ho hr
  | ⟨.array element size, _⟩, _, _, _, _, ht, ho, hr => by
    rw [TypeRef.avoidsIn, Bool.and_eq_true] at hr ⊢
    exact ⟨TypeRef.avoidsIn_mono element ht ho hr.1, exprAvoids_mono size ho hr.2⟩
  | ⟨.path segments, _⟩, _, _, _, _, _, ho, hr => by
    rw [TypeRef.avoidsIn] at hr ⊢
    exact segmentsAvoid_mono segments ho hr

theorem argumentsAvoid_mono : ∀ (arguments : Option (List (List Token)))
    {operands operands' : List String},
    operands ⊆ operands' → argumentsAvoid b true operands arguments = true →
      argumentsAvoid b true operands' arguments = true
  | none, _, _, _, _ => rfl
  | some arguments, _, _, ho, hr => by
    rw [argumentsAvoid] at hr ⊢
    exact exprsAvoid_mono arguments ho hr

theorem exprsAvoid_mono :
    ∀ (exprs : List (List Token)) {operands operands' : List String}, operands ⊆ operands' →
    exprsAvoid b true operands exprs = true → exprsAvoid b true operands' exprs = true
  | [], _, _, _, _ => rfl
  | expr :: rest, _, _, ho, hr => by
    rw [exprsAvoid, Bool.and_eq_true] at hr ⊢
    exact ⟨exprAvoids_mono expr ho hr.1, exprsAvoid_mono rest ho hr.2⟩

theorem exprAvoids_mono :
    ∀ (expr : List Token) {operands operands' : List String}, operands ⊆ operands' →
    exprAvoids b true operands expr = true → exprAvoids b true operands' expr = true
  | [], _, _, _, _ => rfl
  | token :: rest, _, _, ho, hr => by
    rw [exprAvoids, Bool.and_eq_true] at hr ⊢
    exact ⟨tokenAvoids_mono token ho hr.1, exprAvoids_mono rest ho hr.2⟩

theorem tokenAvoids_mono :
    ∀ (token : Token) {operands operands' : List String}, operands ⊆ operands' →
    tokenAvoids b true operands token = true → tokenAvoids b true operands' token = true
  | .parameter name, _, _, ho, hr => by
    rw [tokenAvoids, Bool.or_eq_true] at hr ⊢
    exact hr.imp_right (Bindings.spares_mono ho)
  | .type reference, _, _, ho, hr => by
    rw [tokenAvoids] at hr ⊢
    exact TypeRef.avoidsIn_mono reference (List.Subset.refl _) ho hr
  | .number _, _, _, _, _ | .string _, _, _, _, _ | .operator _, _, _, _, _ => rfl

theorem segmentsAvoid_mono : ∀ (segments : List PathSegment) {operands operands' : List String},
    operands ⊆ operands' → segmentsAvoid b true operands segments = true →
      segmentsAvoid b true operands' segments = true
  | [], _, _, _, _ => rfl
  | ⟨_, arguments⟩ :: rest, _, _, ho, hr => by
    rw [segmentsAvoid, Bool.and_eq_true] at hr ⊢
    exact ⟨argumentsAvoid_mono arguments ho hr.1, segmentsAvoid_mono rest ho hr.2⟩

theorem bodyAvoids_mono :
    ∀ (body : StructBody) {types types' operands operands' : List String}, types ⊆ types' →
    operands ⊆ operands' → bodyAvoids b true types operands body = true →
      bodyAvoids b true types' operands' body = true
  | ⟨_, fields, locals⟩, _, _, _, _, ht, ho, hr => by
    rw [bodyAvoids, Bool.and_eq_true] at hr ⊢
    exact ⟨fieldsAvoid_mono fields ht ho hr.1, definitionsAvoid_mono locals ht hr.2⟩

theorem fieldsAvoid_mono :
    ∀ (fields : List Field) {types types' operands operands' : List String}, types ⊆ types' →
    operands ⊆ operands' → fieldsAvoid b true types operands fields = true →
      fieldsAvoid b true types' operands' fields = true
  | [], _, _, _, _, _, _, _ => rfl
  | field :: rest, _, _, _, _, ht, ho, hr => by
    rw [fieldsAvoid, Bool.and_eq_true] at hr ⊢
    exact ⟨fieldAvoids_mono field ht ho hr.1, fieldsAvoid_mono rest ht ho hr.2⟩

theorem fieldAvoids_mono :
    ∀ (field : Field) {types types' operands operands' : List String}, types ⊆ types' →
    operands ⊆ operands' → fieldAvoids b true types operands field = true →
      fieldAvoids b true types' operands' field = true
  | .typed _ type, _, _, _, _, ht, ho, hr | .constant type _, _, _, _, _, ht, ho, hr => by
    rw [fieldAvoids] at hr ⊢
    exact TypeRef.avoidsIn_mono type ht ho hr
  | .literal _ _, _, _, _, _, _, _, _ => rfl

theorem definitionsAvoid_mono :
    ∀ (definitions : List (String × Definition)) {own own' : List String}, own ⊆ own' →
    definitionsAvoid b own definitions = true → definitionsAvoid b own' definitions = true
  | [], _, _, _, _ => rfl
  | (_, definition) :: rest, _, _, ho, hr => by
    rw [definitionsAvoid, Bool.and_eq_true] at hr ⊢
    exact ⟨definitionAvoids_mono definition ho hr.1, definitionsAvoid_mono rest ho hr.2⟩

theorem definitionAvoids_mono : ∀ (definition : Definition) {own own' : List String}, own ⊆ own' →
    definitionAvoids b own definition = true → definitionAvoids b own' definition = true
  | .struct body, _, _, ho, hr => by
    rw [definitionAvoids] at hr ⊢
    exact bodyAvoids_mono body ho ho hr
  | .enum ⟨_, tag, _, _, locals⟩, _, _, ho, hr => by
    rw [definitionAvoids, Bool.and_eq_true] at hr ⊢
    exact ⟨tagAvoids_mono tag ho hr.1, definitionsAvoid_mono locals ho hr.2⟩
  | .synonym target, _, _, ho, hr => by
    rw [definitionAvoids] at hr ⊢
    exact TypeRef.avoidsIn_mono target ho ho hr
  | .template parameters body, _, _, ho, hr => by
    rw [definitionAvoids] at hr ⊢
    exact definitionAvoids_mono body (List.append_subset.2
      ⟨List.subset_append_left _ _, List.Subset.trans ho (List.subset_append_right _ _)⟩) hr

theorem tagAvoids_mono : ∀ (tag : Option TypeRef) {own own' : List String}, own ⊆ own' →
    tagAvoids b own tag = true → tagAvoids b own' tag = true
  | none, _, _, _, _ => rfl
  | some tag, _, _, ho, hr => by
    rw [tagAvoids] at hr ⊢
    exact TypeRef.avoidsIn_mono tag ho ho hr

end

namespace TypeRef

theorem substitute_parameter (x : Bindings) (name : String) (nullable : Bool) :
    substitute x ⟨.parameter name, nullable⟩ =
      match x.type? name with
      | some bound => ⟨bound.kind, bound.nullable || nullable⟩
      | none => ⟨.parameter name, nullable⟩ := by
  rw [substitute, Bindings.type?]
  cases x.get? name with
  | none => rfl
  | some operand => cases operand <;> rfl

/-- What is avoided depends on the kind alone. -/
theorem avoidsIn_kind (r : TypeRef) (everywhere nullable : Bool) (types operands : List String) :
    avoidsIn b everywhere types operands ⟨r.kind, nullable⟩ =
      r.avoidsIn b everywhere types operands := by
  obtain ⟨kind, _⟩ := r
  cases kind <;> rfl

/-- A reference that avoids all parameters avoids them beside own parameters too. -/
theorem avoidsIn_of_avoids {r : TypeRef} (h : r.avoids b = true) (types operands : List String) :
    r.avoidsIn b true types operands = true :=
  avoidsIn_mono r (List.nil_subset _) (List.nil_subset _) h

/-- Two bindings that agree on own parameters, which have arguments in both, and on all that `b`
does not replace, with arguments that avoid those that it does replace. -/
structure Beyond (b : Bindings) (own : List String) (x y : Bindings) : Prop where
  types : ∀ name, b.sparesType own name = true → x.type? name = y.type? name
  operands : ∀ name, b.spares own name = true → x.get? name = y.get? name
  avoids : ∀ name operand, x.get? name = some operand → operand.avoids b = true
  own : ∀ name ∈ own, (x.get? name).isSome

theorem Beyond.nil (b : Bindings) : Beyond b [] [] [] :=
  ⟨fun _ _ => rfl, fun _ _ => rfl, nofun, nofun⟩

/-- The bindings themselves, and none at all. -/
theorem Beyond.emptied (h : ∀ name type, b.get? name = some (.type type) → type.avoids b = true) :
    Beyond b [] b [] where
  types := by
    intro name hname
    rw [Bindings.sparesType, List.contains_nil, Bool.or_false, Option.isNone_iff_eq_none] at hname
    exact hname
  operands := by
    intro name hname
    rw [Bindings.spares, List.contains_nil, Bool.or_false, Option.isNone_iff_eq_none] at hname
    exact hname
  avoids := by
    intro name operand hget
    cases operand with
    | constant => rfl
    | type type => exact h name type hget
  own := nofun

/-- Some of the own parameters. -/
theorem Beyond.subset (h : Beyond b own x y) {some : List String} (hsome : some ⊆ own) :
    Beyond b some x y where
  types := fun name hname => h.types name (Bindings.sparesType_mono hsome hname)
  operands := fun name hname => h.operands name (Bindings.spares_mono hsome hname)
  avoids := h.avoids
  own := fun name hname => h.own name (hsome hname)

/-- One more argument on both sides, of an own parameter. -/
theorem Beyond.put (h : Beyond b own x y) {operand : Operand} (hoperand : operand.avoids b = true)
    (name : String) :
    Beyond b (name :: own) (Assoc.put x name operand) (Assoc.put y name operand) := by
  have hget : ∀ (z : Bindings) (other : String), Assoc.get? (Assoc.put z name operand) other =
      if other = name then some operand else z.get? other := by
    intro z other
    split
    · next heq => rw [heq, Assoc.get?_put_self]
    · next hne => exact Assoc.get?_put_of_ne z operand hne
  have hspared : ∀ {answer : Bool} {other : String}, other ≠ name →
      (answer || (name :: own).contains other) = true → (answer || own.contains other) = true := by
    intro answer other hne hother
    simpa [hne] using hother
  refine ⟨fun other hother => ?_, fun other hother => ?_, fun other found hfound => ?_,
    fun other hother => ?_⟩
  · rw [Bindings.type?, Bindings.type?, hget, hget]
    split
    · rfl
    · next hne => exact h.types other (hspared hne hother)
  · rw [hget, hget]
    split
    · rfl
    · next hne => exact h.operands other (hspared hne hother)
  · rw [hget] at hfound
    split at hfound
    · obtain rfl := Option.some.inj hfound
      exact hoperand
    · exact h.avoids other found hfound
  · rw [hget]
    split
    · rfl
    · next hne => exact h.own other ((List.mem_cons.1 hother).resolve_left hne)

/-- More arguments on both sides, of own parameters. -/
theorem Beyond.putAll (h : Beyond b own x y) {more : Assoc Operand}
    (hmore : ∀ name operand, (name, operand) ∈ more → operand.avoids b = true) :
    Beyond b (more.keys ++ own) (Assoc.putAll x more) (Assoc.putAll y more) := by
  induction more generalizing own x y with
  | nil => exact h
  | cons entry rest ih =>
    obtain ⟨name, operand⟩ := entry
    have hrest := ih (h.put (hmore name operand List.mem_cons_self) name) fun name operand hmem =>
      hmore name operand (List.mem_cons_of_mem _ hmem)
    refine hrest.subset fun other hother => ?_
    simp only [Assoc.keys, List.map_cons, List.mem_append, List.mem_cons] at hother ⊢
    tauto

/-! ### The same is put in -/

mutual

theorem substitute_congr (h : Beyond b own x y) {types : List String} (hown : types ⊆ own) :
    ∀ r : TypeRef, r.avoidsIn b true types own = true → r.substitute x = r.substitute y
  | ⟨.parameter name, nullable⟩, hr => by
    rw [avoidsIn, Bool.not_true, Bool.false_or] at hr
    rw [substitute_parameter, substitute_parameter, h.types name (Bindings.sparesType_mono hown hr)]
  | ⟨.named name arguments, nullable⟩, hr => by
    rw [avoidsIn] at hr
    rw [substitute, substitute, substituteArguments_congr h arguments hr]
  | ⟨.inline body, nullable⟩, hr => by
    rw [avoidsIn] at hr
    rw [substitute, substitute, substituteBody_congr h hown body hr]
  | ⟨.array element size, nullable⟩, hr => by
    rw [avoidsIn, Bool.and_eq_true] at hr
    rw [substitute, substitute, substitute_congr h hown element hr.1,
      substituteExpr_congr h size hr.2]
  | ⟨.path segments, nullable⟩, hr => by
    rw [avoidsIn] at hr
    rw [substitute, substitute, substituteSegments_congr h segments hr]

theorem substituteArguments_congr (h : Beyond b own x y) :
    ∀ arguments : Option (List (List Token)), argumentsAvoid b true own arguments = true →
      substituteArguments x arguments = substituteArguments y arguments
  | none, _ => rfl
  | some arguments, hr => by
    rw [argumentsAvoid] at hr
    rw [substituteArguments, substituteArguments, substituteExprs_congr h arguments hr]

theorem substituteExprs_congr (h : Beyond b own x y) : ∀ exprs : List (List Token),
    exprsAvoid b true own exprs = true → substituteExprs x exprs = substituteExprs y exprs
  | [], _ => rfl
  | expr :: rest, hr => by
    rw [exprsAvoid, Bool.and_eq_true] at hr
    rw [substituteExprs, substituteExprs, substituteExpr_congr h expr hr.1,
      substituteExprs_congr h rest hr.2]

theorem substituteExpr_congr (h : Beyond b own x y) :
    ∀ expr : List Token, exprAvoids b true own expr = true →
      substituteExpr x expr = substituteExpr y expr
  | [], _ => rfl
  | token :: rest, hr => by
    rw [exprAvoids, Bool.and_eq_true] at hr
    rw [substituteExpr, substituteExpr, substituteToken_congr h token hr.1,
      substituteExpr_congr h rest hr.2]

theorem substituteToken_congr (h : Beyond b own x y) :
    ∀ token : Token, tokenAvoids b true own token = true →
      substituteToken x token = substituteToken y token
  | .parameter name, hr => by
    rw [tokenAvoids, Bool.not_true, Bool.false_or] at hr
    rw [substituteToken, substituteToken, h.operands name hr]
  | .type reference, hr => by
    rw [tokenAvoids] at hr
    rw [substituteToken, substituteToken, substitute_congr h (List.nil_subset _) reference hr]
  | .number _, _ | .string _, _ | .operator _, _ => rfl

theorem substituteSegments_congr (h : Beyond b own x y) :
    ∀ segments : List PathSegment, segmentsAvoid b true own segments = true →
      substituteSegments x segments = substituteSegments y segments
  | [], _ => rfl
  | ⟨name, arguments⟩ :: rest, hr => by
    rw [segmentsAvoid, Bool.and_eq_true] at hr
    rw [substituteSegments, substituteSegments, substituteArguments_congr h arguments hr.1,
      substituteSegments_congr h rest hr.2]

theorem substituteBody_congr (h : Beyond b own x y) {types : List String} (hown : types ⊆ own) :
    ∀ body : StructBody, bodyAvoids b true types own body = true →
      substituteBody x body = substituteBody y body
  | ⟨shape, fields, locals⟩, hr => by
    rw [bodyAvoids, Bool.and_eq_true] at hr
    rw [substituteBody, substituteBody, substituteFields_congr h hown fields hr.1]

theorem substituteFields_congr (h : Beyond b own x y) {types : List String} (hown : types ⊆ own) :
    ∀ fields : List Field, fieldsAvoid b true types own fields = true →
      substituteFields x fields = substituteFields y fields
  | [], _ => rfl
  | field :: rest, hr => by
    rw [fieldsAvoid, Bool.and_eq_true] at hr
    rw [substituteFields, substituteFields, substituteField_congr h hown field hr.1,
      substituteFields_congr h hown rest hr.2]

theorem substituteField_congr (h : Beyond b own x y) {types : List String} (hown : types ⊆ own) :
    ∀ field : Field, fieldAvoids b true types own field = true →
      substituteField x field = substituteField y field
  | .typed key type, hr => by
    rw [fieldAvoids] at hr
    rw [substituteField, substituteField, substitute_congr h hown type hr]
  | .constant type value, hr => by
    rw [fieldAvoids] at hr
    rw [substituteField, substituteField, substitute_congr h hown type hr]
  | .literal _ _, _ => rfl

end

/-! ### Nothing is left -/

/-- Arguments that avoid the parameters that `b` replaces. Where these may still occur they are all
replaced, and own parameters have arguments. -/
structure Clears (b : Bindings) (own : List String) (x : Bindings) (everywhere : Bool) : Prop where
  avoids : ∀ name operand, x.get? name = some operand → operand.avoids b = true
  types : everywhere = true ∨ ∀ name, x.type? name = none → b.type? name = none
  operands : everywhere = true ∨ ∀ name, x.get? name = none → b.get? name = none
  own : ∀ name ∈ own, (x.get? name).isSome

theorem Clears.self (h : ∀ name type, b.get? name = some (.type type) → type.avoids b = true)
    (everywhere : Bool) : Clears b [] b everywhere where
  avoids := (Beyond.emptied h).avoids
  types := Or.inr fun _ hnone => hnone
  operands := Or.inr fun _ hnone => hnone
  own := nofun

theorem Beyond.clears (h : Beyond b own x y) : Clears b own x true :=
  ⟨h.avoids, Or.inl rfl, Or.inl rfl, h.own⟩

/-- What stands in the place of a type stays only if it did not have to be replaced. -/
theorem Clears.sparesType {everywhere : Bool} (h : Clears b own x everywhere)
    {types : List String} {name : String} (hname : (!everywhere || b.sparesType types name) = true)
    (hnone : x.type? name = none) :
    b.sparesType types name = true := by
  rcases h.types with rfl | hall
  · exact hname
  · rw [Bindings.sparesType, hall name hnone]
    rfl

/-- What stands in an expression stays only if it did not have to be replaced, and is no own
parameter. -/
theorem Clears.spares {everywhere : Bool} (h : Clears b own x everywhere) {name : String}
    (hname : (!everywhere || b.spares own name) = true) (hnone : x.get? name = none) :
    b.spares [] name = true := by
  rcases h.operands with rfl | hall
  · rw [Bool.not_true, Bool.false_or, Bindings.spares, Bool.or_eq_true,
      List.contains_iff_mem] at hname
    rw [Bindings.spares, Bool.or_eq_true]
    refine Or.inl (hname.resolve_right fun hmem => ?_)
    have hsome := h.own name hmem
    rw [hnone] at hsome
    cases hsome
  · rw [Bindings.spares, hall name hnone]
    rfl

mutual

theorem avoidsIn_substitute {everywhere : Bool} (h : Clears b own x everywhere) :
    ∀ (r : TypeRef) {types : List String},
    r.avoidsIn b everywhere types own = true → (r.substitute x).avoidsIn b true types [] = true
  | ⟨.parameter name, nullable⟩, types, hr => by
    rw [substitute_parameter]
    cases htype : x.type? name with
    | some bound =>
      obtain ⟨operand, hget, hbound⟩ := Option.bind_eq_some_iff.1 htype
      rw [avoidsIn_kind]
      exact avoidsIn_of_avoids (Operand.avoids_of_type? (h.avoids name operand hget) hbound) types
        []
    | none =>
      rw [avoidsIn] at hr
      exact h.sparesType hr htype
  | ⟨.named name arguments, nullable⟩, _, hr => by
    rw [avoidsIn] at hr
    rw [substitute, avoidsIn, argumentsAvoid_substitute h arguments hr]
  | ⟨.inline body, nullable⟩, _, hr => by
    rw [avoidsIn] at hr
    rw [substitute, avoidsIn, bodyAvoids_substitute h body hr]
  | ⟨.array element size, nullable⟩, _, hr => by
    rw [avoidsIn, Bool.and_eq_true] at hr
    rw [substitute, avoidsIn, avoidsIn_substitute h element hr.1, exprAvoids_substitute h size hr.2]
    rfl
  | ⟨.path segments, nullable⟩, _, hr => by
    rw [avoidsIn] at hr
    rw [substitute, avoidsIn, segmentsAvoid_substitute h segments hr]

theorem argumentsAvoid_substitute {everywhere : Bool} (h : Clears b own x everywhere) :
    ∀ arguments : Option (List (List Token)), argumentsAvoid b everywhere own arguments = true →
      argumentsAvoid b true [] (substituteArguments x arguments) = true
  | none, _ => rfl
  | some arguments, hr => by
    rw [argumentsAvoid] at hr
    rw [substituteArguments, argumentsAvoid, exprsAvoid_substitute h arguments hr]

theorem exprsAvoid_substitute {everywhere : Bool} (h : Clears b own x everywhere) :
    ∀ exprs : List (List Token), exprsAvoid b everywhere own exprs = true →
      exprsAvoid b true [] (substituteExprs x exprs) = true
  | [], _ => rfl
  | expr :: rest, hr => by
    rw [exprsAvoid, Bool.and_eq_true] at hr
    rw [substituteExprs, exprsAvoid, exprAvoids_substitute h expr hr.1,
      exprsAvoid_substitute h rest hr.2]
    rfl

theorem exprAvoids_substitute {everywhere : Bool} (h : Clears b own x everywhere) :
    ∀ expr : List Token,
    exprAvoids b everywhere own expr = true → exprAvoids b true [] (substituteExpr x expr) = true
  | [], _ => rfl
  | token :: rest, hr => by
    rw [exprAvoids, Bool.and_eq_true] at hr
    rw [substituteExpr, exprAvoids, tokenAvoids_substitute h token hr.1,
      exprAvoids_substitute h rest hr.2]
    rfl

theorem tokenAvoids_substitute {everywhere : Bool} (h : Clears b own x everywhere) :
    ∀ token : Token, tokenAvoids b everywhere own token = true →
    tokenAvoids b true [] (substituteToken x token) = true
  | .parameter name, hr => by
    rw [substituteToken]
    cases hget : x.get? name with
    | some operand => exact Operand.avoids_token (h.avoids name operand hget)
    | none =>
      rw [tokenAvoids] at hr
      exact h.spares hr hget
  | .type reference, hr => by
    rw [tokenAvoids] at hr
    rw [substituteToken, tokenAvoids, avoidsIn_substitute h reference hr]
  | .number _, _ | .string _, _ | .operator _, _ => rfl

theorem segmentsAvoid_substitute {everywhere : Bool} (h : Clears b own x everywhere) :
    ∀ segments : List PathSegment, segmentsAvoid b everywhere own segments = true →
      segmentsAvoid b true [] (substituteSegments x segments) = true
  | [], _ => rfl
  | ⟨name, arguments⟩ :: rest, hr => by
    rw [segmentsAvoid, Bool.and_eq_true] at hr
    rw [substituteSegments, segmentsAvoid, argumentsAvoid_substitute h arguments hr.1,
      segmentsAvoid_substitute h rest hr.2]
    rfl

theorem bodyAvoids_substitute {everywhere : Bool} (h : Clears b own x everywhere) :
    ∀ (body : StructBody) {types : List String}, bodyAvoids b everywhere types own body = true →
      bodyAvoids b true types [] (substituteBody x body) = true
  | ⟨shape, fields, locals⟩, _, hr => by
    rw [bodyAvoids, Bool.and_eq_true] at hr
    rw [substituteBody, bodyAvoids, fieldsAvoid_substitute h fields hr.1, hr.2]
    rfl

theorem fieldsAvoid_substitute {everywhere : Bool} (h : Clears b own x everywhere) :
    ∀ (fields : List Field) {types : List String},
      fieldsAvoid b everywhere types own fields = true →
      fieldsAvoid b true types [] (substituteFields x fields) = true
  | [], _, _ => rfl
  | field :: rest, _, hr => by
    rw [fieldsAvoid, Bool.and_eq_true] at hr
    rw [substituteFields, fieldsAvoid, fieldAvoids_substitute h field hr.1,
      fieldsAvoid_substitute h rest hr.2]
    rfl

theorem fieldAvoids_substitute {everywhere : Bool} (h : Clears b own x everywhere) :
    ∀ (field : Field) {types : List String}, fieldAvoids b everywhere types own field = true →
      fieldAvoids b true types [] (substituteField x field) = true
  | .typed key type, _, hr => by
    rw [fieldAvoids] at hr
    rw [substituteField, fieldAvoids, avoidsIn_substitute h type hr]
  | .constant type value, _, hr => by
    rw [fieldAvoids] at hr
    rw [substituteField, fieldAvoids, avoidsIn_substitute h type hr]
  | .literal _ _, _, _ => rfl

end

/-- **Substitution leaves no occurrence** of a parameter that it replaces, if there is none
in local definitions. -/
theorem avoids_substitute (hb : ∀ name type, b.get? name = some (.type type) → type.avoids b = true)
    {r : TypeRef} (hr : r.localsAvoid b = true) : (r.substitute b).avoids b = true :=
  avoidsIn_substitute (Clears.self hb false) r hr

/-- The parameter of a local template is another one than that which is replaced. -/
example : localsAvoid [("T", .type (.named "u8"))] (.inline ⟨.object,
    [.typed (some "x") (.generic "L" [[.type (.named "u16")]])],
    [("L", .template ["T"] (.struct (.object [.typed (some "y") (.parameter "T")])))]⟩) =
      true := rfl

end TypeRef

end Wireform
