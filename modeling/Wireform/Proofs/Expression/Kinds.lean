import Mathlib.Data.List.Basic
import Wireform.Expression.Substitution

/-!
# Parameters that stand for types

The parameters of a template stand for types or for constants; a table says which, by the
name of the template and the position, and it says which names the templates declare. Under
a table a reference fits (`TypeRef.fits`) if each argument at the position of a type is a
type, and if a parameter that stands in the place of a type inside an argument is one of
those that stand for types, or has a name that no template declares. Nothing is asked of the
parameters in the place of a field's own type: one that is not bound to a type is reported
when it is reached.

The table goes by the names of templates, not by the places of their definitions: what an
argument refers to is looked up where the parameter stands that it is put in for, so which
template it is given to may differ from one instance to the next.

* `TypeRef.fits_mono`: what fits still fits if more parameters stand for types.
* `TypeRef.fits_substitute_argument`: once arguments are put in, a type inside an argument has no
  parameter left in the place of a type.
* `Binds.inside`: the bindings inside a template fit its names.
-/

namespace Wireform

/-- What the arguments of templates are, and what their parameters are called. -/
structure Kinds where
  /-- Whether the argument at a position of the templates with a name is a type. -/
  takesType : String → ℕ → Bool
  /-- Whether a template may declare a parameter with the name. -/
  declares : String → Bool

/-- The names that stand for types inside a template, from those that do so around it; the first of
the parameters has a given position. -/
def Kinds.inside (kinds : Kinds) (template : String) : ℕ → List String → List String → List String
  | _, names, [] => names
  | position, names, parameter :: rest =>
    kinds.inside template (position + 1)
      (if kinds.takesType template position then parameter :: names
        else names.filter (· ≠ parameter)) rest

/-- Whether a parameter stands for a type wherever it is bound. -/
def Kinds.allows (kinds : Kinds) (names : List String) (name : String) : Bool :=
  names.contains name || !kinds.declares name

/-- Whether an expression is a type, or a parameter that stands for one wherever it is bound. -/
def isType (kinds : Kinds) (names : List String) : Expr → Bool
  | [.type _] => true
  | [.parameter name] => kinds.allows names name
  | _ => false

/-! ### What fits -/

section Fits

variable (kinds : Kinds)

mutual

/-- Whether a reference fits, given the names that stand for types. Inside an argument no other
parameter that is declared anywhere may stand in the place of a type, and local definitions may
use none of them at all. -/
def TypeRef.fits (names : List String) (argument : Bool) : TypeRef → Bool
  | ⟨.parameter name, _⟩ => !argument || kinds.allows names name
  | ⟨.named name arguments, _⟩ => fitsArguments names name arguments
  | ⟨.inline body, _⟩ => fitsBody names argument body
  | ⟨.array element size, _⟩ => element.fits names argument && fitsExpr names size
  | ⟨.path segments, _⟩ => fitsSegments names segments

/-- Whether the arguments of a template fit. -/
def fitsArguments (names : List String) (template : String) : Option (List (List Token)) → Bool
  | none => true
  | some arguments => fitsExprs names template 0 arguments

/-- Whether arguments fit, of which the first one has a given position. -/
def fitsExprs (names : List String) (template : String) : ℕ → List (List Token) → Bool
  | _, [] => true
  | position, expr :: rest =>
    fitsExpr names expr && (!kinds.takesType template position || isType kinds names expr) &&
      fitsExprs names template (position + 1) rest

/-- Whether the types in an expression fit. -/
def fitsExpr (names : List String) : List Token → Bool
  | [] => true
  | token :: rest => fitsToken names token && fitsExpr names rest

/-- Whether a token fits. -/
def fitsToken (names : List String) : Token → Bool
  | .type reference => reference.fits names true
  | .number _ | .string _ | .parameter _ | .operator _ => true

/-- Whether the arguments in a path fit. -/
def fitsSegments (names : List String) : List PathSegment → Bool
  | [] => true
  | ⟨name, arguments⟩ :: rest => fitsArguments names name arguments && fitsSegments names rest

/-- Whether a struct fits. -/
def fitsBody (names : List String) (argument : Bool) : StructBody → Bool
  | ⟨_, fields, locals⟩ =>
    fitsFields names argument fields && fitsDefinitions (if argument then [] else names) locals

/-- Whether the types of some fields fit. -/
def fitsFields (names : List String) (argument : Bool) : List Field → Bool
  | [] => true
  | field :: rest => fitsField names argument field && fitsFields names argument rest

/-- Whether the type of a field fits. -/
def fitsField (names : List String) (argument : Bool) : Field → Bool
  | .typed _ type | .constant type _ => type.fits names argument
  | .literal _ _ => true

/-- Whether definitions fit. -/
def fitsDefinitions (names : List String) : List (String × Definition) → Bool
  | [] => true
  | (name, definition) :: rest => fitsDefinition names name definition && fitsDefinitions names rest

/-- Whether a definition fits under its name; a template has parameters that are declared. -/
def fitsDefinition (names : List String) (name : String) : Definition → Bool
  | .struct body => fitsBody names false body
  | .enum ⟨_, tag, _, _, locals⟩ => fitsTag names tag && fitsDefinitions names locals
  | .synonym target => target.fits names false
  | .template parameters body =>
    parameters.all kinds.declares && fitsDefinition (kinds.inside name 0 names parameters) name body

/-- Whether the type of a tag fits. -/
def fitsTag (names : List String) : Option TypeRef → Bool
  | none => true
  | some tag => tag.fits names false

end

end Fits

/-! ### More names -/

theorem Kinds.inside_subset (kinds : Kinds) (template : String) (parameters : List String) :
    ∀ (position : ℕ) {names names' : List String}, names ⊆ names' →
      kinds.inside template position names parameters ⊆
        kinds.inside template position names' parameters := by
  induction parameters with
  | nil => exact fun _ _ _ h => h
  | cons parameter rest ih =>
    intro position names names' h
    refine ih (position + 1) ?_
    split
    · exact List.cons_subset_cons parameter h
    · intro name hname
      rw [List.mem_filter] at hname ⊢
      exact ⟨h hname.1, hname.2⟩

section Mono

variable {kinds : Kinds}

theorem Kinds.allows_mono {names names' : List String} (h : names ⊆ names') {name : String}
    (hname : kinds.allows names name = true) : kinds.allows names' name = true := by
  simp only [Kinds.allows, Bool.or_eq_true, List.contains_iff_mem] at *
  exact hname.imp_left fun hmem => h hmem

theorem isType_mono {names names' : List String} (h : names ⊆ names') {expr : Expr}
    (hexpr : isType kinds names expr = true) : isType kinds names' expr = true := by
  unfold isType at *
  split at hexpr
  · rfl
  · exact Kinds.allows_mono h hexpr
  · cases hexpr

mutual

/-- What fits still fits if more parameters stand for types. -/
theorem TypeRef.fits_mono {names names' : List String} {argument argument' : Bool}
    (h : names ⊆ names') (ha : argument' = true → argument = true) :
    ∀ r : TypeRef, r.fits kinds names argument = true → r.fits kinds names' argument' = true
  | ⟨.parameter name, _⟩, hr => by
    simp only [TypeRef.fits, Bool.or_eq_true, Bool.not_eq_true'] at *
    rcases hr with hr | hr
    · exact Or.inl (Bool.eq_false_iff.2 fun ht => by rw [ha ht] at hr; cases hr)
    · exact Or.inr (Kinds.allows_mono h hr)
  | ⟨.named name arguments, _⟩, hr => fitsArguments_mono h name arguments hr
  | ⟨.inline body, _⟩, hr => fitsBody_mono h ha body hr
  | ⟨.array element size, _⟩, hr => by
    simp only [TypeRef.fits, Bool.and_eq_true] at *
    exact ⟨TypeRef.fits_mono h ha element hr.1, fitsExpr_mono h size hr.2⟩
  | ⟨.path segments, _⟩, hr => fitsSegments_mono h segments hr

theorem fitsArguments_mono {names names' : List String} (h : names ⊆ names') (template : String) :
    ∀ arguments : Option (List (List Token)), fitsArguments kinds names template arguments = true →
      fitsArguments kinds names' template arguments = true
  | none, _ => rfl
  | some arguments, hr => fitsExprs_mono h template 0 arguments hr

theorem fitsExprs_mono {names names' : List String} (h : names ⊆ names') (template : String) :
    ∀ (position : ℕ) (exprs : List (List Token)),
      fitsExprs kinds names template position exprs = true →
      fitsExprs kinds names' template position exprs = true
  | _, [], _ => rfl
  | position, expr :: rest, hr => by
    simp only [fitsExprs, Bool.and_eq_true, Bool.or_eq_true] at *
    exact ⟨⟨fitsExpr_mono h expr hr.1.1, hr.1.2.imp_right (isType_mono h)⟩,
      fitsExprs_mono h template (position + 1) rest hr.2⟩

theorem fitsExpr_mono {names names' : List String} (h : names ⊆ names') :
    ∀ expr : List Token, fitsExpr kinds names expr = true → fitsExpr kinds names' expr = true
  | [], _ => rfl
  | token :: rest, hr => by
    simp only [fitsExpr, Bool.and_eq_true] at *
    exact ⟨fitsToken_mono h token hr.1, fitsExpr_mono h rest hr.2⟩

theorem fitsToken_mono {names names' : List String} (h : names ⊆ names') :
    ∀ token : Token, fitsToken kinds names token = true → fitsToken kinds names' token = true
  | .type reference, hr => TypeRef.fits_mono h id reference hr
  | .number _, _ | .string _, _ | .parameter _, _ | .operator _, _ => rfl

theorem fitsSegments_mono {names names' : List String} (h : names ⊆ names') :
    ∀ segments : List PathSegment, fitsSegments kinds names segments = true →
      fitsSegments kinds names' segments = true
  | [], _ => rfl
  | ⟨name, arguments⟩ :: rest, hr => by
    simp only [fitsSegments, Bool.and_eq_true] at *
    exact ⟨fitsArguments_mono h name arguments hr.1, fitsSegments_mono h rest hr.2⟩

theorem fitsBody_mono {names names' : List String} {argument argument' : Bool} (h : names ⊆ names')
    (ha : argument' = true → argument = true) :
    ∀ body : StructBody, fitsBody kinds names argument body = true →
      fitsBody kinds names' argument' body = true
  | ⟨_, fields, locals⟩, hr => by
    simp only [fitsBody, Bool.and_eq_true] at *
    refine ⟨fitsFields_mono h ha fields hr.1, fitsDefinitions_mono ?_ locals hr.2⟩
    split
    · exact List.nil_subset _
    · next hargument =>
      rw [if_neg fun ht => hargument (ha ht)]
      exact h

theorem fitsFields_mono {names names' : List String} {argument argument' : Bool}
    (h : names ⊆ names') (ha : argument' = true → argument = true) :
    ∀ fields : List Field, fitsFields kinds names argument fields = true →
      fitsFields kinds names' argument' fields = true
  | [], _ => rfl
  | field :: rest, hr => by
    simp only [fitsFields, Bool.and_eq_true] at *
    exact ⟨fitsField_mono h ha field hr.1, fitsFields_mono h ha rest hr.2⟩

theorem fitsField_mono {names names' : List String} {argument argument' : Bool} (h : names ⊆ names')
    (ha : argument' = true → argument = true) :
    ∀ field : Field, fitsField kinds names argument field = true →
      fitsField kinds names' argument' field = true
  | .typed _ type, hr | .constant type _, hr => TypeRef.fits_mono h ha type hr
  | .literal _ _, _ => rfl

theorem fitsDefinitions_mono {names names' : List String} (h : names ⊆ names') :
    ∀ definitions : List (String × Definition), fitsDefinitions kinds names definitions = true →
      fitsDefinitions kinds names' definitions = true
  | [], _ => rfl
  | (name, definition) :: rest, hr => by
    simp only [fitsDefinitions, Bool.and_eq_true] at *
    exact ⟨fitsDefinition_mono h name definition hr.1, fitsDefinitions_mono h rest hr.2⟩

theorem fitsDefinition_mono {names names' : List String} (h : names ⊆ names') (name : String) :
    ∀ definition : Definition, fitsDefinition kinds names name definition = true →
      fitsDefinition kinds names' name definition = true
  | .struct body, hr => fitsBody_mono h id body hr
  | .enum ⟨_, tag, _, _, locals⟩, hr => by
    simp only [fitsDefinition, Bool.and_eq_true] at *
    exact ⟨fitsTag_mono h tag hr.1, fitsDefinitions_mono h locals hr.2⟩
  | .synonym target, hr => TypeRef.fits_mono h id target hr
  | .template parameters body, hr => by
    simp only [fitsDefinition, Bool.and_eq_true] at *
    exact ⟨hr.1, fitsDefinition_mono (kinds.inside_subset name parameters 0 h) name body hr.2⟩

theorem fitsTag_mono {names names' : List String} (h : names ⊆ names') :
    ∀ tag : Option TypeRef, fitsTag kinds names tag = true → fitsTag kinds names' tag = true
  | none, _ => rfl
  | some tag, hr => TypeRef.fits_mono h id tag hr

end

end Mono

/-! ### Bindings -/

/-- An operand that is a type fits inside an argument, without any names. -/
def Operand.Fits (kinds : Kinds) (operand : Operand) : Prop :=
  ∀ r, operand = .type r → r.fits kinds [] true = true

/-- All types that are bound fit, so many names at least are bound to types, and whatever is bound
has been declared. -/
structure Binds (kinds : Kinds) (names : List String) (bindings : Bindings) : Prop where
  fits : ∀ name operand, bindings.get? name = some operand → operand.Fits kinds
  bound : ∀ name ∈ names, ∃ r, bindings.get? name = some (.type r)
  declared : ∀ name operand, bindings.get? name = some operand → kinds.declares name = true

variable {kinds : Kinds} {names : List String} {bindings : Bindings}

theorem Binds.nil (kinds : Kinds) : Binds kinds [] [] :=
  ⟨fun _ _ h => (nomatch h), fun _ h => (nomatch h), fun _ _ h => (nomatch h)⟩

/-- A parameter that may stand in the place of a type is bound to one, if it is bound at all. -/
theorem Binds.eq_type_of_allows (h : Binds kinds names bindings) {name : String}
    (hname : kinds.allows names name = true) {operand : Operand}
    (hbound : bindings.get? name = some operand) : ∃ r, operand = .type r := by
  simp only [Kinds.allows, Bool.or_eq_true, List.contains_iff_mem, Bool.not_eq_true'] at hname
  rcases hname with hname | hname
  · obtain ⟨r, hr⟩ := h.bound name hname
    exact ⟨r, Option.some.inj (hbound.symm.trans hr)⟩
  · rw [h.declared name operand hbound] at hname
    cases hname

/-- Without names only parameters that are not bound may stand in the place of a type. -/
theorem Binds.get?_eq_none_of_allows (h : Binds kinds names bindings) {name : String}
    (hname : kinds.allows [] name = true) : bindings.get? name = none := by
  simp only [Kinds.allows, List.contains_nil, Bool.false_or, Bool.not_eq_true'] at hname
  refine Option.eq_none_iff_forall_ne_some.2 fun operand hbound => ?_
  rw [h.declared name operand hbound] at hname
  cases hname

/-- A parameter that is bound to nothing may still stand there once arguments are put in. -/
theorem Binds.allows_of_get?_eq_none (h : Binds kinds names bindings) {name : String}
    (hname : kinds.allows names name = true) (hbound : bindings.get? name = none) :
    kinds.allows [] name = true := by
  simp only [Kinds.allows, Bool.or_eq_true, List.contains_iff_mem] at hname ⊢
  refine Or.inr (hname.resolve_left fun hmem => ?_)
  obtain ⟨r, hr⟩ := h.bound name hmem
  cases hbound.symm.trans hr

/-- The operands of an argument list fit, those at the positions of types are types; the first one
has a given position. -/
def Suits (kinds : Kinds) (template : String) (position : ℕ) (operands : List Operand) : Prop :=
  ∀ i operand, operands[i]? = some operand → operand.Fits kinds ∧
    (kinds.takesType template (position + i) = true → ∃ r, operand = .type r)

theorem Suits.nil (kinds : Kinds) (template : String) (position : ℕ) :
    Suits kinds template position [] :=
  fun _ _ h => nomatch h

theorem Suits.cons {template : String} {position : ℕ} {operand : Operand} {operands : List Operand}
    (hfits : operand.Fits kinds)
    (htype : kinds.takesType template position = true → ∃ r, operand = .type r)
    (h : Suits kinds template (position + 1) operands) :
    Suits kinds template position (operand :: operands) := by
  rintro (_ | i) found hi
  · obtain rfl := Option.some.inj hi
    exact ⟨hfits, htype⟩
  · have hfound := h i found hi
    rwa [Nat.add_right_comm] at hfound

/-- A parameter shadows what its name stood for. -/
theorem Binds.put (h : Binds kinds names bindings) {template parameter : String} {position : ℕ}
    {operand : Operand} (hdeclared : kinds.declares parameter = true) (hfits : operand.Fits kinds)
    (htype : kinds.takesType template position = true → ∃ r, operand = .type r) :
    Binds kinds (if kinds.takesType template position then parameter :: names
      else names.filter (· ≠ parameter)) (bindings.put parameter operand) where
  fits := by
    intro name found hfound
    by_cases heq : name = parameter
    · subst heq
      rw [Assoc.get?_put_self] at hfound
      exact Option.some.inj hfound ▸ hfits
    · rw [Assoc.get?_put_of_ne _ _ heq] at hfound
      exact h.fits name found hfound
  bound := by
    intro name hname
    by_cases heq : name = parameter
    · subst heq
      rw [Assoc.get?_put_self]
      split at hname
      · next hkind =>
        obtain ⟨r, rfl⟩ := htype hkind
        exact ⟨r, rfl⟩
      · simp at hname
    · rw [Assoc.get?_put_of_ne _ _ heq]
      refine h.bound name ?_
      split at hname
      · exact (List.mem_cons.1 hname).resolve_left heq
      · exact List.mem_of_mem_filter hname
  declared := by
    intro name found hfound
    by_cases heq : name = parameter
    · exact heq ▸ hdeclared
    · rw [Assoc.get?_put_of_ne _ _ heq] at hfound
      exact h.declared name found hfound

/-- The bindings inside a template fit its names. -/
theorem Binds.inside (h : Binds kinds names bindings) {template : String} {position : ℕ}
    {parameters : List String} {operands : List Operand}
    (hdeclared : ∀ parameter ∈ parameters, kinds.declares parameter = true)
    (hlength : parameters.length = operands.length)
    (hsuits : Suits kinds template position operands) :
    Binds kinds (kinds.inside template position names parameters)
      (bindings.putAll (parameters.zip operands)) := by
  induction parameters generalizing position operands names bindings with
  | nil => exact h
  | cons parameter rest ih =>
    cases operands with
    | nil => cases hlength
    | cons operand operands =>
      obtain ⟨hfits, htype⟩ := hsuits 0 operand rfl
      obtain ⟨hparameter, hrest⟩ := List.forall_mem_cons.1 hdeclared
      refine ih (h.put hparameter hfits htype) hrest (Nat.succ.inj hlength) fun i found hi => ?_
      have hnext := hsuits (i + 1) found hi
      rwa [← Nat.add_assoc, Nat.add_right_comm] at hnext

/-! ### Substitution -/

theorem TypeRef.fits_kind (r : TypeRef) (nullable argument : Bool) :
    (⟨r.kind, nullable⟩ : TypeRef).fits kinds names argument = r.fits kinds names argument := by
  obtain ⟨kind, _⟩ := r
  cases kind <;> rfl

open TypeRef in
theorem isType_substitute (hb : Binds kinds names bindings) {expr : Expr}
    (h : isType kinds names expr = true) :
    isType kinds [] (substituteExpr bindings expr) = true := by
  unfold isType at h
  split at h
  · rfl
  · next name =>
    simp only [substituteExpr, substituteToken]
    cases hbound : bindings.get? name with
    | none => exact hb.allows_of_get?_eq_none h hbound
    | some operand =>
      obtain ⟨r, rfl⟩ := hb.eq_type_of_allows h hbound
      rfl
  · cases h

open TypeRef in
mutual

/-- Once arguments are put in, a type inside an argument has no parameter left in the place of a
type that could be replaced later. -/
theorem TypeRef.fits_substitute_argument (hb : Binds kinds names bindings) :
    ∀ r : TypeRef, r.fits kinds names true = true →
      (r.substitute bindings).fits kinds [] true = true
  | ⟨.parameter name, nullable⟩, hr => by
    simp only [TypeRef.fits, Bool.not_true, Bool.false_or] at hr
    simp only [TypeRef.substitute]
    cases hbound : bindings.get? name with
    | none => exact hb.allows_of_get?_eq_none hr hbound
    | some operand =>
      obtain ⟨bound, rfl⟩ := hb.eq_type_of_allows hr hbound
      dsimp only
      rw [TypeRef.fits_kind]
      exact hb.fits name _ hbound bound rfl
  | ⟨.named name arguments, _⟩, hr => fitsArguments_substitute hb name arguments hr
  | ⟨.inline body, _⟩, hr => fitsBody_substitute hb body hr
  | ⟨.array element size, _⟩, hr => by
    simp only [TypeRef.fits, TypeRef.substitute, Bool.and_eq_true] at *
    exact ⟨TypeRef.fits_substitute_argument hb element hr.1, fitsExpr_substitute hb size hr.2⟩
  | ⟨.path segments, _⟩, hr => fitsSegments_substitute hb segments hr

theorem fitsArguments_substitute (hb : Binds kinds names bindings) (template : String) :
    ∀ arguments : Option (List (List Token)), fitsArguments kinds names template arguments = true →
      fitsArguments kinds [] template (substituteArguments bindings arguments) = true
  | none, _ => rfl
  | some arguments, hr => fitsExprs_substitute hb template 0 arguments hr

theorem fitsExprs_substitute (hb : Binds kinds names bindings) (template : String) :
    ∀ (position : ℕ) (exprs : List (List Token)),
      fitsExprs kinds names template position exprs = true →
      fitsExprs kinds [] template position (substituteExprs bindings exprs) = true
  | _, [], _ => rfl
  | position, expr :: rest, hr => by
    simp only [fitsExprs, substituteExprs, Bool.and_eq_true, Bool.or_eq_true] at *
    exact ⟨⟨fitsExpr_substitute hb expr hr.1.1, hr.1.2.imp_right (isType_substitute hb)⟩,
      fitsExprs_substitute hb template (position + 1) rest hr.2⟩

theorem fitsExpr_substitute (hb : Binds kinds names bindings) :
    ∀ expr : List Token, fitsExpr kinds names expr = true →
      fitsExpr kinds [] (substituteExpr bindings expr) = true
  | [], _ => rfl
  | token :: rest, hr => by
    simp only [fitsExpr, substituteExpr, Bool.and_eq_true] at *
    exact ⟨fitsToken_substitute hb token hr.1, fitsExpr_substitute hb rest hr.2⟩

theorem fitsToken_substitute (hb : Binds kinds names bindings) :
    ∀ token : Token, fitsToken kinds names token = true →
      fitsToken kinds [] (substituteToken bindings token) = true
  | .type reference, hr => TypeRef.fits_substitute_argument hb reference hr
  | .parameter name, _ => by
    simp only [substituteToken]
    split
    · next bound hbound =>
      cases bound with
      | constant value => cases value <;> rfl
      | type r => exact hb.fits name _ hbound r rfl
    · rfl
  | .number _, _ | .string _, _ | .operator _, _ => rfl

theorem fitsSegments_substitute (hb : Binds kinds names bindings) :
    ∀ segments : List PathSegment, fitsSegments kinds names segments = true →
      fitsSegments kinds [] (substituteSegments bindings segments) = true
  | [], _ => rfl
  | ⟨name, arguments⟩ :: rest, hr => by
    simp only [fitsSegments, substituteSegments, Bool.and_eq_true] at *
    exact ⟨fitsArguments_substitute hb name arguments hr.1, fitsSegments_substitute hb rest hr.2⟩

theorem fitsBody_substitute (hb : Binds kinds names bindings) :
    ∀ body : StructBody, fitsBody kinds names true body = true →
      fitsBody kinds [] true (substituteBody bindings body) = true
  | ⟨_, fields, locals⟩, hr => by
    simp only [fitsBody, substituteBody, Bool.and_eq_true] at *
    exact ⟨fitsFields_substitute hb fields hr.1, hr.2⟩

theorem fitsFields_substitute (hb : Binds kinds names bindings) :
    ∀ fields : List Field, fitsFields kinds names true fields = true →
      fitsFields kinds [] true (substituteFields bindings fields) = true
  | [], _ => rfl
  | field :: rest, hr => by
    simp only [fitsFields, substituteFields, Bool.and_eq_true] at *
    exact ⟨fitsField_substitute hb field hr.1, fitsFields_substitute hb rest hr.2⟩

theorem fitsField_substitute (hb : Binds kinds names bindings) :
    ∀ field : Field, fitsField kinds names true field = true →
      fitsField kinds [] true (substituteField bindings field) = true
  | .typed _ type, hr | .constant type _, hr => TypeRef.fits_substitute_argument hb type hr
  | .literal _ _, _ => rfl

end

open TypeRef in
mutual

/-- What fits in the place of a field's type still fits once arguments are put in. -/
theorem TypeRef.fits_substitute (hb : Binds kinds names bindings) :
    ∀ r : TypeRef, r.fits kinds names false = true →
      (r.substitute bindings).fits kinds names false = true
  | ⟨.parameter name, nullable⟩, _ => by
    simp only [TypeRef.substitute]
    split
    · next bound hbound =>
      rw [TypeRef.fits_kind]
      have hfits := hb.fits name _ hbound bound rfl
      exact TypeRef.fits_mono (List.nil_subset _) (fun _ => rfl) bound hfits
    · rfl
  | ⟨.named name arguments, _⟩, hr =>
    fitsArguments_mono (List.nil_subset _) name _ (fitsArguments_substitute hb name arguments hr)
  | ⟨.inline ⟨_, fields, locals⟩, _⟩, hr => by
    simp only [TypeRef.fits, TypeRef.substitute, fitsBody, substituteBody, Bool.and_eq_true] at *
    exact ⟨fitsFields_substitute_place hb fields hr.1, hr.2⟩
  | ⟨.array element size, _⟩, hr => by
    simp only [TypeRef.fits, TypeRef.substitute, Bool.and_eq_true] at *
    exact ⟨TypeRef.fits_substitute hb element hr.1,
      fitsExpr_mono (List.nil_subset _) _ (fitsExpr_substitute hb size hr.2)⟩
  | ⟨.path segments, _⟩, hr =>
    fitsSegments_mono (List.nil_subset _) _ (fitsSegments_substitute hb segments hr)

theorem fitsFields_substitute_place (hb : Binds kinds names bindings) :
    ∀ fields : List Field, fitsFields kinds names false fields = true →
      fitsFields kinds names false (substituteFields bindings fields) = true
  | [], _ => rfl
  | .typed _ type :: rest, hr | .constant type _ :: rest, hr => by
    simp only [fitsFields, fitsField, substituteFields, substituteField, Bool.and_eq_true] at *
    exact ⟨TypeRef.fits_substitute hb type hr.1, fitsFields_substitute_place hb rest hr.2⟩
  | .literal _ _ :: rest, hr => by
    simp only [fitsFields, fitsField, substituteFields, substituteField, Bool.true_and] at *
    exact fitsFields_substitute_place hb rest hr

end

end Wireform
