import Wireform.Proofs.Expression.Substitution
import Wireform.Proofs.Session.Fitting

/-!
# Every expansion comes to an end

A reference leads to new blocks, each of which takes away some room, and between two blocks
to its own parts. Without bindings the parts become smaller. Under bindings they do not, as
arguments are put into them again and again; but once it has been done the weight of a
reference stays the same, and its parts weigh less than it does.

* `settles_compileBody`: a block ends if its references do.
* `settles_resolveStep`: a reference ends if its parts do, and the blocks it leads to.
* `settles_resolveType`: every reference ends that fits.
-/

namespace Wireform.Session

variable {kinds : Kinds} {names : List String} {resolve : ℕ → Resolver} {room : ℕ} {s t : Session}
  {scope home : ScopeId} {bindings : Bindings}

/-- With so much room, resolving the reference under the bindings ends wherever it starts. -/
def Reaches (kinds : Kinds) (resolve : ℕ → Resolver) (room : ℕ) (r : TypeRef)
    (bindings : Bindings) : Prop :=
  ∀ (s : Session) (scope : ScopeId), s.Fits kinds → s.room = room →
    s.Settles kinds (fun levels => resolve levels scope r bindings) fun _ _ => True

/-- With so much room, resolving any reference that fits ends. -/
def Expands (kinds : Kinds) (resolve : ℕ → Resolver) (room : ℕ) : Prop :=
  ∀ names bindings (r : TypeRef), Binds kinds names bindings → r.fits kinds names false = true →
    Reaches kinds resolve room r bindings

/-- If the operand is a type, it fits without names, and resolving it without bindings ends. -/
def Measured (kinds : Kinds) (resolve : ℕ → Resolver) (room : ℕ) (operand : Operand) : Prop :=
  ∀ q, operand = .type q → q.fits kinds [] true = true ∧ Reaches kinds resolve room q []

/-- The types in an expression and the types that are bound are measured. -/
structure Measures (kinds : Kinds) (names : List String) (resolve : ℕ → Resolver) (room : ℕ)
    (bindings : Bindings) (expr : Expr) : Prop where
  types : ∀ q, .type q ∈ expr → Measured kinds resolve room (.type (q.substitute bindings))
  bound : ∀ name operand, bindings.get? name = some operand → Measured kinds resolve room operand
  binds : Binds kinds names bindings

/-! ### Expressions -/

section Expressions

open Expression

theorem settles_number (hs : s.Fits kinds) (operator : String) (operand : Operand) :
    s.Settles kinds (fun _ => number operator operand) fun _ _ => True := by
  unfold number
  cases operand with
  | type q => exact Settles.fail _
  | constant value =>
    cases value with
    | number value => exact Settles.pure hs trivial
    | string text => exact Settles.fail _

theorem measured_constant (value : Constant) : Measured kinds resolve room (.constant value) :=
  fun _ h => nomatch h

theorem measured_cons {operand : Operand} {stack : List Operand}
    (h : Measured kinds resolve room operand)
    (hstack : ∀ other ∈ stack, Measured kinds resolve room other) :
    ∀ other ∈ operand :: stack, Measured kinds resolve room other :=
  List.forall_mem_cons.2 ⟨h, hstack⟩

theorem settles_sizeOfOperand (hs : s.Fits kinds) (hroom : s.room = room) (operator : String)
    {operand : Operand} (h : Measured kinds resolve room operand) :
    s.Settles kinds
      (fun levels => sizeOfOperand (fun r => do maxSize (← resolve levels scope r []))
        operator operand)
      fun size _ => Measured kinds resolve room size := by
  cases operand with
  | constant value => exact Settles.fail _
  | type q =>
    have hsize : s.Settles kinds (fun levels => do maxSize (← resolve levels scope q []))
        fun _ _ => True :=
      Settles.bind ((h q rfl).2 s scope hs hroom) fun id t hst _ => settles_maxSize hst.fits id
    refine Settles.bind hsize fun size t hst _ => ?_
    cases size with
    | bounded bytes => exact Settles.pure hst.fits (measured_constant _)
    | unbounded => exact Settles.fail _

theorem settles_applyOperator (hs : s.Fits kinds) (hroom : s.room = room) (name : String)
    (operator : Operator) {stack : List Operand}
    (hstack : ∀ operand ∈ stack, Measured kinds resolve room operand) :
    s.Settles kinds
      (fun levels => applyOperator (fun r => do maxSize (← resolve levels scope r []))
        name operator stack)
      fun stack _ => ∀ operand ∈ stack, Measured kinds resolve room operand := by
  cases operator with
  | binary op =>
    rcases stack with _ | ⟨b, _ | ⟨a, rest⟩⟩
    · exact Settles.fail _
    · exact Settles.fail _
    · refine Settles.bind (settles_number hs name a) fun _ t hst _ => ?_
      refine Settles.bind (settles_number hst.fits name b) fun _ u htu _ => ?_
      refine Settles.pure htu.fits
        (measured_cons (measured_constant _) fun other ho => hstack other ?_)
      exact List.mem_cons_of_mem _ (List.mem_cons_of_mem _ ho)
  | unary op =>
    rcases stack with _ | ⟨a, rest⟩
    · exact Settles.fail _
    · refine Settles.bind (settles_number hs name a) fun _ t hst _ => ?_
      refine Settles.pure hst.fits
        (measured_cons (measured_constant _) fun other ho => hstack other ?_)
      exact List.mem_cons_of_mem _ ho
  | sizeof =>
    rcases stack with _ | ⟨a, rest⟩
    · exact Settles.fail _
    · refine Settles.bind (settles_sizeOfOperand hs hroom name (hstack a List.mem_cons_self))
        fun size t hst hsize => ?_
      refine Settles.pure hst.fits (measured_cons hsize fun other ho => hstack other ?_)
      exact List.mem_cons_of_mem _ ho

theorem settles_step (hs : s.Fits kinds) (hroom : s.room = room) {stack : List Operand}
    (hstack : ∀ operand ∈ stack, Measured kinds resolve room operand) {token : Token}
    (hm : Measures kinds names resolve room bindings [token]) :
    s.Settles kinds
      (fun levels => step (fun r => do maxSize (← resolve levels scope r [])) bindings stack token)
      fun stack _ => ∀ operand ∈ stack, Measured kinds resolve room operand := by
  cases token with
  | number | string => exact Settles.pure hs (measured_cons (measured_constant _) hstack)
  | type q => exact Settles.pure hs (measured_cons (hm.types q List.mem_cons_self) hstack)
  | parameter name =>
    simp only [step]
    cases hbound : bindings.get? name with
    | none => exact Settles.fail _
    | some operand => exact Settles.pure hs (measured_cons (hm.bound name operand hbound) hstack)
  | operator name =>
    simp only [step]
    cases Operator.ofName? name with
    | none => exact Settles.fail _
    | some operator => exact settles_applyOperator hs hroom name operator hstack

theorem Measures.cons {token : Token} {expr : Expr}
    (h : Measures kinds names resolve room bindings (token :: expr)) :
    Measures kinds names resolve room bindings [token] ∧
    Measures kinds names resolve room bindings expr :=
  ⟨⟨fun q hq => h.types q (List.mem_cons.2 (Or.inl (List.mem_singleton.1 hq))), h.bound, h.binds⟩,
    ⟨fun q hq => h.types q (List.mem_cons_of_mem _ hq), h.bound, h.binds⟩⟩

theorem settles_run (hs : s.Fits kinds) (hroom : s.room = room) {stack : List Operand}
    (hstack : ∀ operand ∈ stack, Measured kinds resolve room operand) {expr : Expr}
    (hm : Measures kinds names resolve room bindings expr) :
    s.Settles kinds
      (fun levels => run (fun r => do maxSize (← resolve levels scope r [])) bindings stack expr)
      fun stack _ => ∀ operand ∈ stack, Measured kinds resolve room operand := by
  induction expr generalizing s stack with
  | nil => exact Settles.pure hs hstack
  | cons token rest ih =>
    obtain ⟨htoken, hrest⟩ := hm.cons
    refine Settles.bind (settles_step hs hroom hstack htoken) fun stack t hst hstack => ?_
    exact ih hst.fits (hst.room.trans hroom) hstack hrest

/-- A parameter alone leaves what it is bound to. -/
theorem settles_parameter (hs : s.Fits kinds) {name : String}
    (hm : Measures kinds names resolve room bindings [.parameter name]) :
    s.Settles kinds (fun levels =>
        run (fun r => do maxSize (← resolve levels scope r [])) bindings [] [.parameter name])
      fun stack _ => ∃ operand, stack = [operand] ∧ Measured kinds resolve room operand ∧
        bindings.get? name = some operand := by
  simp only [run, step]
  cases hbound : bindings.get? name with
  | none => exact Settles.fail _
  | some operand => exact Settles.pure hs ⟨operand, rfl, hm.bound name operand hbound, rfl⟩

end Expressions

/-- The operand that an expression leaves is measured, and a type if the expression is one. -/
theorem settles_evaluate (hs : s.Fits kinds) (hroom : s.room = room) {expr : Expr}
    (hm : Measures kinds names resolve room bindings expr) :
    s.Settles kinds (fun levels => evaluate (resolve levels) scope bindings expr) fun operand _ =>
      Measured kinds resolve room operand ∧
      (isType kinds names expr = true → ∃ q, operand = .type q) := by
  by_cases htype : isType kinds names expr = true
  · unfold isType at htype
    split at htype
    · next q => exact Settles.pure hs ⟨hm.types q List.mem_cons_self, fun _ => ⟨_, rfl⟩⟩
    · next name =>
      refine Settles.bind (settles_parameter hs hm) fun stack t hst hstack => ?_
      obtain ⟨operand, rfl, hoperand, hbound⟩ := hstack
      exact Settles.pure hst.fits ⟨hoperand, fun _ => hm.binds.eq_type_of_allows htype hbound⟩
    · cases htype
  · refine Settles.bind (settles_run hs hroom (List.forall_mem_nil _) hm)
      fun stack t hst hstack => ?_
    rcases stack with _ | ⟨operand, _ | ⟨other, rest⟩⟩
    · exact Settles.fail _
    · exact Settles.pure hst.fits ⟨hstack operand List.mem_cons_self, fun h => absurd h htype⟩
    · exact Settles.fail _

/-! ### Argument lists -/

theorem settles_mapM_evaluate (hs : s.Fits kinds) (hroom : s.room = room)
    {template : String} {position : ℕ} {arguments : List Expr}
    (hfits : fitsExprs kinds names template position arguments = true)
    (hm : ∀ expr ∈ arguments, Measures kinds names resolve room bindings expr) :
    s.Settles kinds (fun levels => arguments.mapM (evaluate (resolve levels) scope bindings))
      fun operands _ => Suits kinds template position operands := by
  induction arguments generalizing s position with
  | nil => exact Settles.pure hs (Suits.nil kinds template position)
  | cons expr rest ih =>
    simp only [fitsExprs, Bool.and_eq_true, Bool.or_eq_true, Bool.not_eq_true'] at hfits
    simp only [List.mapM_cons]
    refine Settles.bind (settles_evaluate hs hroom (hm expr List.mem_cons_self))
      fun operand t hst hoperand => ?_
    refine Settles.bind (ih hst.fits (hst.room.trans hroom) hfits.2 fun other ho =>
      hm other (List.mem_cons_of_mem _ ho)) fun operands u htu hoperands => ?_
    refine Settles.pure htu.fits (hoperands.cons (fun q hq => (hoperand.1 q hq).1) fun hkind => ?_)
    -- at the position of a type the argument is a type
    refine hoperand.2 (hfits.1.2.resolve_left fun hno => ?_)
    rw [hkind] at hno
    cases hno

/-- The operands of an argument list suit the template that it is for. -/
theorem settles_evaluateArguments (hs : s.Fits kinds) (hroom : s.room = room) {template : String}
    {arguments : Option (List Expr)} (hfits : fitsArguments kinds names template arguments = true)
    (hm : ∀ expr ∈ arguments.getD [], Measures kinds names resolve room bindings expr) :
    s.Settles kinds (fun levels => evaluateArguments (resolve levels) scope bindings arguments)
      fun operands _ => ∀ list ∈ operands, Suits kinds template 0 list := by
  cases arguments with
  | none => exact Settles.pure hs fun _ h => nomatch h
  | some arguments =>
    refine Settles.bind (settles_mapM_evaluate hs hroom hfits hm) fun operands t hst hsuits => ?_
    refine Settles.pure hst.fits fun list hlist => ?_
    obtain rfl := Option.some.inj hlist
    exact hsuits

/-! ### Structs, enums and arrays -/

theorem settles_compileField (hs : s.Fits kinds) (hroom : s.room = room) (shape : StructShape)
    (p : PartialStruct) (field : Field)
    (h : ∀ q ∈ field.type?, Reaches kinds resolve room q bindings) :
    s.Settles kinds (fun levels => compileField (resolve levels) scope bindings shape p field)
      fun _ _ => True := by
  cases field with
  | constant type value =>
    refine Settles.bind (h type rfl s scope hs hroom) fun id t hst _ => ?_
    refine Settles.bind (settles_maxSize hst.fits id) fun size u htu _ => ?_
    exact Settles.get_bind (Settles.pure htu.fits trivial)
  | literal key value =>
    refine Settles.bind (Settles.orFail hs) fun place t hst _ => ?_
    exact Settles.pure hst.fits trivial
  | typed key type =>
    refine Settles.bind (Settles.orFail hs) fun place t hst _ => ?_
    refine Settles.bind (h type rfl t scope hst.fits (hst.room.trans hroom)) fun id u htu _ => ?_
    refine Settles.bind (settles_maxSize htu.fits id) fun size v huv _ => ?_
    exact Settles.pure huv.fits trivial

theorem settles_compileFields (hs : s.Fits kinds) (hroom : s.room = room) (shape : StructShape)
    (p : PartialStruct) (fields : List Field)
    (h : ∀ q ∈ fields.filterMap Field.type?, Reaches kinds resolve room q bindings) :
    s.Settles kinds (fun levels => compileFields (resolve levels) scope bindings shape p fields)
      fun _ _ => True := by
  induction fields generalizing s p with
  | nil => exact Settles.pure hs trivial
  | cons field rest ih =>
    have hmem : ∀ {q : TypeRef} {other : Field}, other ∈ field :: rest → q ∈ other.type? →
        Reaches kinds resolve room q bindings := fun ho hq => h _ (List.mem_filterMap.2 ⟨_, ho, hq⟩)
    refine Settles.bind (settles_compileField hs hroom shape p field fun q hq =>
      hmem List.mem_cons_self hq) fun p t hst _ => ?_
    refine ih hst.fits (hst.room.trans hroom) p fun q hq => ?_
    obtain ⟨other, ho, hq⟩ := List.mem_filterMap.1 hq
    exact hmem (List.mem_cons_of_mem _ ho) hq

theorem settles_compileStruct (hs : s.Fits kinds) (hroom : s.room = room) (body : StructBody)
    (h : ∀ q ∈ body.fields.filterMap Field.type?, Reaches kinds resolve room q bindings) :
    s.Settles kinds (fun levels => compileStruct (resolve levels) scope body bindings)
      fun _ _ => True := by
  unfold compileStruct
  cases body.shape with
  | empty => exact Settles.pure hs trivial
  | object | tuple =>
    refine Settles.bind (settles_compileFields hs hroom _ _ _ h) fun p t hst _ => ?_
    exact Settles.pure hst.fits trivial

theorem settles_compileArray (hs : s.Fits kinds) (hroom : s.room = room)
    {element : TypeRef} {size : Expr}
    (helement : Reaches kinds resolve room (element.substitute bindings) bindings)
    (hsize : Measures kinds names resolve room bindings size) :
    s.Settles kinds (fun levels => compileArray (resolve levels) scope element size bindings)
      fun _ _ => True := by
  unfold compileArray
  refine Settles.bind (settles_evaluate hs hroom hsize) fun operand t hst _ => ?_
  refine Settles.bind (Settles.orFail hst.fits) fun length u htu _ => ?_
  have hsu := hst.trans htu
  refine Settles.bind (helement u scope hsu.fits (hsu.room.trans hroom)) fun id v huv _ => ?_
  exact Settles.get_bind (settles_push huv.fits _)

theorem settles_variantLayout (hs : s.Fits kinds) (shape : EnumShape) (target : String)
    (entry : EnumEntry) (payload : TypeId) :
    s.Settles kinds (fun _ => variantLayout shape target entry payload) fun _ _ => True := by
  refine Settles.get_bind ?_
  cases shape with
  | object => exact Settles.pure hs trivial
  | tuple =>
    by_cases hempty : (structBehind? s.arena payload).any (·.shape = .empty) = true
    · simp only [if_pos hempty]
      exact Settles.bind (settles_sharedEmptyTuple hs)
        fun _ t hst _ => Settles.pure hst.fits trivial
    · simp only [if_neg hempty]
      exact Settles.pure hs trivial

/-- A name without arguments fits anyhow. -/
theorem Expands.named (h : Expands kinds resolve room) (hb : Binds kinds names bindings)
    (name : String) :
    Reaches kinds resolve room (.named name) bindings :=
  h names bindings (.named name) hb rfl

theorem settles_compileVariants (h : Expands kinds resolve room) (hb : Binds kinds names bindings)
    (hs : s.Fits kinds) (hroom : s.room = room) (shape : EnumShape) (target : String)
    (greatest : Size) (entries : List EnumEntry) :
    s.Settles kinds
      (fun levels => compileVariants (resolve levels) scope bindings shape target greatest entries)
      fun _ _ => True := by
  induction entries generalizing s greatest with
  | nil => exact Settles.pure hs trivial
  | cons entry rest ih =>
    refine Settles.bind (h.named hb entry.variant s scope hs hroom) fun payload t hst _ => ?_
    refine Settles.bind (settles_variantLayout hst.fits shape target entry payload)
      fun variant u htu _ => ?_
    refine Settles.bind (settles_maxSize htu.fits _) fun size v huv _ => ?_
    have hsv := (hst.trans htu).trans huv
    refine Settles.bind (ih hsv.fits (hsv.room.trans hroom) _) fun r w hvw _ => ?_
    exact Settles.pure hvw.fits trivial

theorem settles_compileEnum (h : Expands kinds resolve room) (hb : Binds kinds names bindings)
    (hs : s.Fits kinds) (hroom : s.room = room) (body : EnumBody)
    (htag : fitsTag kinds names body.tagType = true) :
    s.Settles kinds (fun levels => compileEnum (resolve levels) scope body bindings)
      fun _ _ => True := by
  have hreaches : Reaches kinds resolve room
      (body.tagType.getD (.named s.options.defaultTagType)) bindings := by
    cases hbody : body.tagType with
    | none => exact h.named hb _
    | some tag =>
      rw [hbody] at htag
      exact h names bindings tag hb htag
  refine Settles.get_bind ?_
  refine Settles.bind (hreaches s scope hs hroom) fun tag t hst _ => ?_
  refine Settles.bind (settles_compileVariants h hb hst.fits (hst.room.trans hroom) _ _ _ _)
    fun r u htu _ => ?_
  refine Settles.bind (settles_maxSize htu.fits tag) fun size v huv _ => ?_
  exact Settles.pure huv.fits trivial

/-! ### Builtin templates -/

theorem settles_typeArgument (h : Expands kinds resolve room) (hs : s.Fits kinds)
    (hroom : s.room = room) (builtin : Builtin) {operand : Operand} (hfits : operand.Fits kinds) :
    s.Settles kinds (fun levels => typeArgument (resolve levels) scope builtin operand)
      fun _ _ => True := by
  cases operand with
  | constant value => exact Settles.fail _
  | type q =>
    have hq : q.fits kinds [] false = true :=
      TypeRef.fits_mono (List.Subset.refl []) (fun _ => rfl) q (hfits q rfl)
    exact h [] [] q (Binds.nil kinds) hq s scope hs hroom

theorem settles_compileBuiltin (h : Expands kinds resolve room) (hs : s.Fits kinds)
    (hroom : s.room = room) (builtin : Builtin) {arguments : List Operand}
    (hfits : ∀ operand ∈ arguments, operand.Fits kinds) :
    s.Settles kinds (fun levels => compileBuiltin (resolve levels) scope builtin arguments)
      fun _ _ => True := by
  cases builtin with
  | string =>
    rcases arguments with _ | ⟨⟨_ | label⟩ | q, rest⟩
    · exact Settles.fail _
    · exact Settles.fail _
    · simp only [compileBuiltin]
      cases TextEncoding.ofLabel? label with
      | none => exact Settles.fail _
      | some encoding => exact Settles.pure hs trivial
    · exact Settles.fail _
  | array =>
    rcases arguments with _ | ⟨element, _ | ⟨length, rest⟩⟩
    · exact Settles.fail _
    · refine Settles.bind
        (settles_typeArgument h hs hroom .array (hfits element List.mem_cons_self))
        fun id t hst _ => Settles.pure hst.fits trivial
    · refine Settles.bind
        (settles_typeArgument h hs hroom .array (hfits element List.mem_cons_self))
        fun id t hst _ => ?_
      refine Settles.bind (Settles.orFail hst.fits) fun length u htu _ => ?_
      refine Settles.bind (settles_maxSize htu.fits id) fun size v huv _ => ?_
      exact Settles.pure huv.fits trivial
  | padded =>
    rcases arguments with _ | ⟨inner, _ | ⟨size, rest⟩⟩
    · exact Settles.fail _
    · exact Settles.fail _
    · refine Settles.bind (settles_typeArgument h hs hroom .padded (hfits inner List.mem_cons_self))
        fun id t hst _ => ?_
      refine Settles.bind (Settles.orFail hst.fits) fun size u htu _ => ?_
      exact Settles.pure htu.fits trivial
  | bytes =>
    rcases arguments with _ | ⟨count, rest⟩
    · exact Settles.fail _
    · refine Settles.bind (Settles.orFail hs) fun size t hst _ => ?_
      exact Settles.pure hst.fits trivial

/-! ### Blocks -/

theorem settles_compileDefinition (h : Expands kinds resolve room) (hb : Binds kinds names bindings)
    (hs : s.Fits kinds) (hroom : s.room = room) (ident : String) {name : String}
    {definition : Definition} (hfits : fitsDefinition kinds names name definition = true) :
    s.Settles kinds
      (fun levels => compileDefinition (resolve levels) scope ident definition bindings)
      fun _ _ => True := by
  cases definition with
  | struct body =>
    obtain ⟨shape, fields, locals⟩ := body
    simp only [fitsDefinition, fitsBody, Bool.and_eq_true] at hfits
    exact settles_compileStruct hs hroom _
      fun q hq => h names bindings q hb (TypeRef.fits_of_mem hq hfits.1)
  | enum body =>
    obtain ⟨shape, tag, target, entries, locals⟩ := body
    simp only [fitsDefinition, Bool.and_eq_true] at hfits
    exact settles_compileEnum h hb hs hroom _ hfits.1
  | synonym target =>
    simp only [compileDefinition]
    by_cases hnullable : (target.substitute bindings).nullable = true
    · simp only [if_pos hnullable]
      exact Settles.fail _
    · simp only [if_neg hnullable]
      refine Settles.bind (h names bindings target hb hfits s scope hs hroom) fun id t hst _ => ?_
      refine Settles.bind (settles_maxSize hst.fits id) fun size u htu _ => ?_
      exact Settles.pure htu.fits trivial
  | template => exact Settles.fail _

/-- A block fits: its definition does, under its name, or the operands do that it is given. -/
def BlockBody.Fits (kinds : Kinds) (names : List String) (name : String) : BlockBody → Prop
  | .definition body => fitsDefinition kinds names name body = true
  | .builtin _ arguments => ∀ operand ∈ arguments, operand.Fits kinds

theorem BlockBody.Fits.locals {name : String} {body : BlockBody} (h : body.Fits kinds names name)
    {definitions : Assoc Definition} (hlocals : body.locals? = some definitions) :
    fitsDefinitions kinds names definitions = true := by
  cases body with
  | builtin => cases hlocals
  | definition definition =>
    cases definition with
    | struct body =>
      obtain ⟨shape, fields, locals⟩ := body
      simp only [BlockBody.Fits, fitsDefinition, fitsBody, Bool.and_eq_true] at h
      simp only [BlockBody.locals?, Definition.locals?] at hlocals
      split at hlocals
      · cases hlocals
      · obtain rfl := Option.some.inj hlocals
        exact h.2
    | enum body =>
      obtain ⟨shape, tag, target, entries, locals⟩ := body
      simp only [BlockBody.Fits, fitsDefinition, Bool.and_eq_true] at h
      obtain rfl := Option.some.inj hlocals
      exact h.2
    | synonym | template => cases hlocals

/-- **A block ends**, if every reference that fits does where there is less room. -/
theorem settles_block (hdeeper : ∀ less < room, Expands kinds resolve less) (hs : s.Fits kinds)
    (hroom : s.room = room) (hb : Binds kinds names bindings) (key : Option String) (ident : String)
    {name : String} {body : BlockBody} (hfits : body.Fits kinds names name) :
    s.Settles kinds (fun levels => compileBlock (resolve levels) home key ident body bindings)
      fun _ _ => True := by
  refine settles_compileBlock hs hb home key ident body (fun _ h => hfits.locals h)
    fun t nested ht hless => ?_
  have hexpands := hdeeper t.room (hroom ▸ hless)
  cases body with
  | definition definition => exact settles_compileDefinition hexpands hb ht rfl ident hfits
  | builtin builtin arguments => exact settles_compileBuiltin hexpands ht rfl builtin hfits

/-! ### Names -/

theorem settles_resolveEntry (hdeeper : ∀ less < room, Expands kinds resolve less)
    (hs : s.Fits kinds) (hroom : s.room = room) (name : String) :
    s.Settles kinds (fun levels => resolveEntry (resolve levels) home name) fun r t =>
      ∀ template, r = .template template → template.Fits kinds (t.scope home) name := by
  obtain ⟨names, hscope⟩ := hs home
  refine Settles.get_bind ?_
  dsimp only
  cases hentry : (s.scope home).entries.get? name with
  | some entry =>
    cases entry with
    | compiled id | locked slot inner =>
      refine Settles.pure hs ?_
      exact fun _ h => nomatch h
    | deferred template =>
      refine Settles.pure hs ?_
      rintro _ h
      obtain rfl := Resolved.template.inj h
      cases template with
      | builtin builtin => trivial
      | user parameters body =>
        exact ⟨names, hscope.binds,
          hscope.templates name parameters body (Assoc.mem_of_get? hentry)⟩
  | none =>
    cases hdefinition : (s.scope home).definitions.get? name with
    | none => exact Settles.fail _
    | some definition =>
      have hfits := fitsDefinition_of_get? hscope.definitions hdefinition
      cases definition with
      | template parameters body =>
        refine Settles.bind (settles_insert hs ?_) fun _ t hst hbindings => ?_
        · intro parameters' body' heq
          cases heq
          exact hdefinition
        · refine Settles.pure hst.fits ?_
          rintro _ h
          obtain rfl := Resolved.template.inj h
          exact ⟨names, hbindings ▸ hscope.binds, hfits⟩
      | struct | enum | synonym =>
        have hbody : BlockBody.Fits kinds names name (.definition _) := hfits
        refine Settles.bind (settles_block hdeeper hs hroom hscope.binds _ _ hbody)
          fun id t hst _ => ?_
        refine Settles.pure hst.fits ?_
        exact fun _ h => nomatch h

theorem fits_of_templateArguments {name : String} {template : Template}
    {arguments operands : List Operand}
    (h : templateArguments name template arguments = .ok operands)
    (hfits : ∀ operand ∈ arguments, operand.Fits kinds) :
    ∀ operand ∈ operands, operand.Fits kinds := by
  rcases templateArguments_eq h with rfl | ⟨-, rfl⟩
  · exact hfits
  -- the argument that is put in is a text
  · exact List.forall_mem_singleton.2 fun _ hq => nomatch hq

theorem Suits.fits {template : String} {position : ℕ} {operands : List Operand}
    (h : Suits kinds template position operands) : ∀ operand ∈ operands, operand.Fits kinds := by
  intro operand hmem
  obtain ⟨i, hi⟩ := List.getElem?_of_mem hmem
  exact (h i operand hi).1

theorem settles_instantiate (hdeeper : ∀ less < room, Expands kinds resolve less)
    (hs : s.Fits kinds) (hroom : s.room = room) {name : String} {template : Template}
    (htemplate : template.Fits kinds (s.scope home) name) {arguments : List Operand}
    (hsuits : Suits kinds name 0 arguments) :
    s.Settles kinds (fun levels => instantiate (resolve levels) home name template arguments)
      fun _ _ => True := by
  unfold instantiate
  refine Settles.bind (Settles.orFail hs) fun operands t hst hoperands => ?_
  obtain ⟨hoperands, rfl⟩ := hoperands
  refine Settles.get_bind ?_
  dsimp only
  cases (instanceKey? name operands).bind (t.scope home).entries.get? with
  | some entry =>
    cases entry with
    | compiled id => exact Settles.pure hs trivial
    | locked slot inner => exact Settles.pure hs trivial
    | deferred template => exact Settles.fail _
  | none =>
    have hfits := fits_of_templateArguments hoperands (Suits.fits hsuits)
    cases template with
    | builtin builtin =>
      have hbody : BlockBody.Fits kinds [] name (.builtin builtin operands) := hfits
      exact settles_block hdeeper hs hroom (Binds.nil kinds) _ _ hbody
    | user parameters body =>
      obtain ⟨names, hb, htemplate⟩ := htemplate
      simp only [fitsDefinition, Bool.and_eq_true, List.all_eq_true] at htemplate
      obtain ⟨hdeclared, hbody⟩ := htemplate
      simp only [templateArguments] at hoperands
      split at hoperands
      · next hlength =>
        obtain rfl := Except.ok.inj hoperands
        have hbody : BlockBody.Fits kinds (kinds.inside name 0 names parameters) name
            (.definition body) := hbody
        exact settles_block hdeeper hs hroom (hb.inside hdeclared hlength hsuits) _ _ hbody
      · cases hoperands

theorem settles_resolveInstance (hdeeper : ∀ less < room, Expands kinds resolve less)
    (hs : s.Fits kinds) (hroom : s.room = room) (name : String) {arguments : List Operand}
    (hsuits : Suits kinds name 0 arguments) (localOnly : Bool) :
    s.Settles kinds (fun levels => resolveInstance (resolve levels) scope name arguments localOnly)
      fun _ _ => True := by
  refine Settles.get_bind ?_
  cases s.lookup? scope name localOnly with
  | none => exact Settles.fail _
  | some home =>
    refine Settles.bind (settles_resolveEntry hdeeper hs hroom name) fun r t hst hr => ?_
    cases r with
    | type id => exact Settles.fail _
    | template template =>
      exact settles_instantiate hdeeper hst.fits (hst.room.trans hroom) (hr template rfl) hsuits

theorem settles_resolveName (hdeeper : ∀ less < room, Expands kinds resolve less)
    (hs : s.Fits kinds) (hroom : s.room = room) (name : String) {arguments : Option (List Operand)}
    (hsuits : ∀ list ∈ arguments, Suits kinds name 0 list) (localOnly : Bool) :
    s.Settles kinds (fun levels => resolveName (resolve levels) scope name arguments localOnly)
      fun _ _ => True := by
  cases arguments with
  | some arguments =>
    exact settles_resolveInstance hdeeper hs hroom name (hsuits arguments rfl) localOnly
  | none =>
    refine Settles.get_bind ?_
    cases s.lookup? scope name localOnly with
    | none => exact Settles.fail _
    | some home =>
      refine Settles.bind (settles_resolveEntry hdeeper hs hroom name) fun r t hst hr => ?_
      cases r with
      | type id => exact Settles.pure hst.fits trivial
      | template template =>
        cases template with
        | user parameters body => exact Settles.fail _
        | builtin builtin =>
          exact settles_resolveInstance hdeeper hst.fits (hst.room.trans hroom) name
            (Suits.nil kinds name 0) localOnly

/-! ### References -/

theorem settles_resolvePath (hdeeper : ∀ less < room, Expands kinds resolve less)
    (hs : s.Fits kinds) (hroom : s.room = room) (whole : TypeRef) (localOnly : Bool)
    {segments : List PathSegment} (hfits : fitsSegments kinds names segments = true)
    (hm : ∀ segment ∈ segments, ∀ expr ∈ segment.arguments.getD [],
      Measures kinds names resolve room bindings expr) :
    s.Settles kinds
      (fun levels => resolvePath (resolve levels) whole bindings scope localOnly segments)
      fun _ _ => True := by
  induction segments generalizing s scope localOnly with
  | nil => exact Settles.fail _
  | cons segment rest ih =>
    obtain ⟨name, arguments⟩ := segment
    simp only [fitsSegments, Bool.and_eq_true] at hfits
    simp only [resolvePath]
    refine Settles.bind (settles_evaluateArguments hs hroom hfits.1 (hm _ List.mem_cons_self))
      fun operands t hst hsuits => ?_
    refine Settles.bind
      (settles_resolveName hdeeper hst.fits (hst.room.trans hroom) name hsuits localOnly)
      fun id u htu _ => ?_
    cases rest with
    | nil => exact Settles.pure htu.fits trivial
    | cons next rest =>
      refine Settles.get_bind ?_
      cases u.nestedScope? id with
      | none => exact Settles.fail _
      | some inner =>
        exact ih htu.fits ((hst.trans htu).room.trans hroom) true hfits.2 fun other ho =>
          hm other (List.mem_cons_of_mem _ ho)

theorem settles_resolveInline (hs : s.Fits kinds) (hroom : s.room = room)
    (hb : Binds kinds names bindings) (whole : TypeRef) {body : StructBody}
    (hfits : fitsBody kinds names false body = true)
    (h : ∀ q ∈ body.fields.filterMap Field.type?, Reaches kinds resolve room q bindings) :
    s.Settles kinds (fun levels => resolveInline (resolve levels) scope whole body bindings)
      fun _ _ => True := by
  have hbody : BlockBody.Fits kinds names "" (.definition (.struct body)) := hfits
  refine Settles.bind (settles_openLocals hs hb scope _ fun _ hlocals => hbody.locals hlocals)
    fun inner t hst _ => ?_
  refine Settles.bind (settles_compileStruct hst.fits (hst.room.trans hroom) body h)
    fun r u htu _ => ?_
  exact settles_push htu.fits _

/-- **A reference ends**, if its parts do, as they are and with arguments put in once more, and the
types in its expressions, and every reference that fits where there is less room. -/
theorem settles_resolveStep (hdeeper : ∀ less < room, Expands kinds resolve less)
    (hb : Binds kinds names bindings) {r : TypeRef}
    (hfits : (r.substitute bindings).fits kinds names false = true)
    (hparts : ∀ part ∈ (r.substitute bindings).parts, Reaches kinds resolve room part bindings ∧
      Reaches kinds resolve room (part.substitute bindings) bindings)
    (hexprs : ∀ expr ∈ (r.substitute bindings).exprs,
      Measures kinds names resolve room bindings expr)
    (hs : s.Fits kinds) (hroom : s.room = room) :
    s.Settles kinds (fun levels => resolveStep (resolve levels) scope r bindings)
      fun _ _ => True := by
  unfold resolveStep
  dsimp only
  generalize r.substitute bindings = q at hfits hparts hexprs ⊢
  obtain ⟨kind, nullable⟩ := q
  cases kind with
  | parameter name =>
    dsimp only
    cases bindings.get? name with
    | none => exact Settles.fail _
    | some operand => cases operand <;> exact Settles.fail _
  | inline body => exact settles_resolveInline hs hroom hb _ hfits fun q hq => (hparts q hq).1
  | array element size =>
    exact settles_compileArray hs hroom (hparts element List.mem_cons_self).2
      (hexprs size List.mem_cons_self)
  | path segments =>
    exact settles_resolvePath hdeeper hs hroom _ false hfits fun segment hsegment expr hexpr =>
      hexprs expr (List.mem_flatMap.2 ⟨segment, hsegment, hexpr⟩)
  | named name arguments =>
    refine Settles.bind (settles_evaluateArguments hs hroom hfits hexprs)
      fun operands t hst hsuits => ?_
    exact settles_resolveName hdeeper hst.fits (hst.room.trans hroom) name hsuits false

/-- What a step ends with one level less, ends. -/
theorem reaches_of_step {r : TypeRef}
    (h : ∀ (s : Session) (scope : ScopeId), s.Fits kinds → s.room = room →
      s.Settles kinds
      (fun levels => resolveStep (resolveType levels) scope r bindings) fun _ _ => True) :
    Reaches kinds resolveType room r bindings :=
  fun s scope hs hroom => Converges.of_succ ⟨s, rfl⟩ (h s scope hs hroom)

theorem fits_of_argument {q : TypeRef} (h : q.fits kinds [] true = true) :
    q.fits kinds [] false = true :=
  TypeRef.fits_mono (List.Subset.refl []) (fun _ => rfl) q h

/-- Without bindings what a reference is taken apart into becomes smaller. -/
theorem reaches_without_bindings
    (hdeeper : ∀ less < room, Expands kinds resolveType less) (r : TypeRef)
    (hfits : r.fits kinds [] false = true) : Reaches kinds resolveType room r [] := by
  induction hsize : sizeOf r using Nat.strong_induction_on generalizing r with
  | _ size ih =>
    subst hsize
    have hsame := TypeRef.substitute_nil r
    refine reaches_of_step fun s scope hs hroom =>
      settles_resolveStep hdeeper (Binds.nil kinds) ?_ ?_ ?_ hs hroom
    · rwa [hsame]
    · intro part hpart
      rw [hsame] at hpart
      have hreaches :=
        ih _ (TypeRef.sizeOf_lt_of_mem_parts hpart) part (TypeRef.fits_of_mem_parts hfits hpart) rfl
      rw [TypeRef.substitute_nil]
      exact ⟨hreaches, hreaches⟩
    · intro expr hexpr
      rw [hsame] at hexpr
      refine ⟨fun q hq => ?_, fun _ _ h => (nomatch h), Binds.nil kinds⟩
      have hargument := TypeRef.fits_of_mem_fitsExpr (TypeRef.fitsExpr_of_mem_exprs hfits hexpr) hq
      rw [TypeRef.substitute_nil]
      rintro _ ⟨⟩
      exact ⟨hargument, ih _ (TypeRef.sizeOf_lt_of_mem_expr hexpr hq) q
        (fits_of_argument hargument) rfl⟩

/-- **Every reference that fits comes to an end.** -/
theorem expands_resolveType (kinds : Kinds) (room : ℕ) : Expands kinds resolveType room := by
  induction room using Nat.strong_induction_on with
  | _ room hdeeper =>
    intro names bindings r hb hfits
    have hfree := fun q (hq : q.fits kinds [] true = true) =>
      reaches_without_bindings hdeeper q (fits_of_argument hq)
    -- once arguments have been put in, the parts weigh less
    induction hweight : (r.substitute bindings).weight using Nat.strong_induction_on
      generalizing r with
    | _ weight ih =>
      subst hweight
      have hafter := TypeRef.fits_substitute hb r hfits
      refine reaches_of_step fun s scope hs hroom =>
        settles_resolveStep hdeeper hb hafter ?_ ?_ hs hroom
      · intro part hpart
        have hpartFits := TypeRef.fits_of_mem_parts hafter hpart
        have hlt := TypeRef.weight_lt_of_mem_parts hpart
        have hsame :=
          TypeRef.weight_substitute part ((TypeRef.isFixed_substitute hb r).of_mem_parts hpart)
        have hagain := TypeRef.weight_substitute _ (TypeRef.isFixed_substitute hb part)
        exact ⟨ih _ (hsame ▸ hlt) part hpartFits rfl,
          ih _ (hagain ▸ hsame ▸ hlt) _ (TypeRef.fits_substitute hb part hpartFits) rfl⟩
      · intro expr hexpr
        refine ⟨fun q hq => ?_, fun name operand hbound => ?_, hb⟩
        · have hq := TypeRef.fits_of_mem_fitsExpr (TypeRef.fitsExpr_of_mem_exprs hafter hexpr) hq
          rintro _ ⟨⟩
          have hargument := TypeRef.fits_substitute_argument hb q hq
          exact ⟨hargument, hfree _ hargument⟩
        · rintro q rfl
          have hargument := hb.fits name _ hbound q rfl
          exact ⟨hargument, hfree q hargument⟩

end Wireform.Session
