import Wireform.Proofs.Expression.Names
import Wireform.Proofs.Session.Recurrence

/-!
# References that mean the same in two namespaces

A reference without parameters is resolved by looking its names up around the place where it stands.
So it means the same in two namespaces around which these names are found in the same place,
whatever bindings are in force; for plain names this does not change while a session grows.

* `Same`: from a session on, two computations do the same.
* `Together`: two namespaces around which some names are found in the same place.
* `scoped_resolveType`: what asks for these names only is resolved in the same way from both.
-/

namespace Wireform

/-- It is a constant, or a type without parameters that asks for such names only. -/
def Operand.Asks (p : String → Bool) : Operand → Prop
  | .constant _ => True
  | .type r => r.asks p = true

namespace Session

variable {s t : Session} {q q' : ScopeId} {p : String → Bool} {resolve : Resolver} {b b' : Bindings}
  {α β : Type}

/-! ### The same run -/

/-- From `s` on two computations do the same, and the result satisfies `post`. -/
structure Same (s : Session) (x y : Compile α) (post : α → Session → Prop) : Prop where
  eq : x s = y s
  sound : s.Sound x post

namespace Same

variable {x y : Compile α} {post : α → Session → Prop}

theorem refl (h : s.Sound x post) : s.Same x x post := ⟨rfl, h⟩

theorem pure {a : α} (hs : s.Valid) (h : post a s) : s.Same (Pure.pure a) (Pure.pure a) post :=
  refl (Sound.pure hs h)

/-- What follows need only do the same from where the first step has ended. -/
theorem bind_eq {f g : α → Compile β} (h : s.Same x y post)
    (hfg : ∀ a t, Advances s t → post a t → f a t = g a t) : (x >>= f) s = (y >>= g) s := by
  cases hx : x s with
  | ok a t =>
    obtain ⟨hst, ha⟩ := Ensures.of_ok h.sound hx
    rw [bind_of_ok hx, bind_of_ok (h.eq ▸ hx)]
    exact hfg a t hst ha
  | error stop t => rw [bind_of_error hx, bind_of_error (h.eq ▸ hx)]

theorem bind {f g : α → Compile β} {post' : β → Session → Prop} (h : s.Same x y post)
    (hfg : ∀ a t, Advances s t → post a t → t.Same (f a) (g a) post') :
    s.Same (x >>= f) (y >>= g) post' :=
  ⟨h.bind_eq fun a t hst ha => (hfg a t hst ha).eq,
    h.sound.bind fun a t hst ha => (hfg a t hst ha).sound⟩

end Same

/-- Two namespaces around which the names with a property are found in the same place. -/
structure Together (s : Session) (q q' : ScopeId) (p : String → Bool) : Prop where
  valid : s.Valid
  left : q.index < s.scopes.size
  right : q'.index < s.scopes.size
  plain : ∀ name, p name = true → '<' ∉ name.toList
  found : ∀ name, p name = true →
    ∃ home, s.lookup? q name false = some home ∧ s.lookup? q' name false = some home

theorem Together.later (h : s.Together q q' p) (hst : Advances s t) : t.Together q q' p where
  valid := hst.valid
  left := hst.scope_lt h.left
  right := hst.scope_lt h.right
  plain := h.plain
  found := by
    intro name hname
    obtain ⟨home, hfound, hfound'⟩ := h.found name hname
    have hplain := h.plain name hname
    exact ⟨home, hst.toGrows.persists.lookup? h.valid hst.valid h.left (.inr (.inr hplain)) hfound,
      hst.toGrows.persists.lookup? h.valid hst.valid h.right (.inr (.inr hplain)) hfound'⟩

/-- What makes the same of a reference in two namespaces around which all names that it asks for are
found in the same place. -/
def Resolver.Scoped (resolve : Resolver) : Prop :=
  ∀ (s : Session) (q q' : ScopeId) (p : String → Bool) (b b' : Bindings) (r : TypeRef),
    s.Together q q' p → r.asks p = true → resolve q r b s = resolve q' r b' s

/-! ### Bindings do not matter -/

theorem step_of_asks (sizeOf : TypeRef → Compile Size) (stack : List Operand) {token : Token}
    (htoken : tokenAsks p token = true) :
    Expression.step sizeOf b stack token = Expression.step sizeOf b' stack token := by
  cases token with
  | number | string | operator => rfl
  | type reference =>
    have hreference : reference.asks p = true := htoken
    rw [Expression.step, Expression.step, reference.substitute_of_asks b hreference,
      reference.substitute_of_asks b' hreference]
  | parameter name => cases htoken

theorem run_of_asks (sizeOf : TypeRef → Compile Size) {expr : Expr} (hexpr : exprAsks p expr = true)
    (stack : List Operand) :
    Expression.run sizeOf b stack expr = Expression.run sizeOf b' stack expr := by
  induction expr generalizing stack with
  | nil => rfl
  | cons token rest ih =>
    rw [exprAsks, Bool.and_eq_true] at hexpr
    rw [Expression.run, Expression.run, step_of_asks sizeOf stack hexpr.1]
    exact congrArg _ (funext fun stack => ih hexpr.2 stack)

theorem evaluateArguments_of_asks (resolve : Resolver) (scope : ScopeId)
    {arguments : Option (List Expr)} (harguments : argumentsAsk p arguments = true) :
    evaluateArguments resolve scope b arguments = evaluateArguments resolve scope b' arguments := by
  cases arguments with
  | none => rfl
  | some exprs =>
    have hmapM : exprs.mapM (evaluate resolve scope b) =
        exprs.mapM (evaluate resolve scope b') := by
      rw [argumentsAsk] at harguments
      induction exprs with
      | nil => rfl
      | cons expr rest ih =>
        rw [exprsAsk, Bool.and_eq_true] at harguments
        have hexpr : evaluate resolve scope b expr = evaluate resolve scope b' expr := by
          unfold evaluate Expression.evaluate
          rw [run_of_asks _ harguments.1]
        rw [List.mapM_cons, List.mapM_cons, hexpr, ih harguments.2]
    rw [evaluateArguments, evaluateArguments, hmapM]

theorem resolvePath_of_asks (resolve : Resolver) (whole : TypeRef) {segments : List PathSegment}
    (hsegments : segmentsAsk p segments = true) (scope : ScopeId) (localOnly : Bool) :
    resolvePath resolve whole b scope localOnly segments =
      resolvePath resolve whole b' scope localOnly segments := by
  induction segments generalizing p scope localOnly with
  | nil => rfl
  | cons segment rest ih =>
    obtain ⟨name, arguments⟩ := segment
    rw [segmentsAsk, Bool.and_eq_true, Bool.and_eq_true] at hsegments
    obtain ⟨⟨-, harguments⟩, hrest⟩ := hsegments
    unfold resolvePath
    rw [evaluateArguments_of_asks resolve scope harguments]
    cases rest with
    | nil => rfl
    | cons second rest => simp only [ih hrest]

/-! ### Expressions -/

section Expressions

variable (hsound : resolve.Sound) (hscoped : resolve.Scoped)

include hsound hscoped

theorem same_sizeOf (h : s.Together q q' p) {r : TypeRef} (hr : r.asks p = true) :
    s.Same (do maxSize (← resolve q r [])) (do maxSize (← resolve q' r [])) fun _ _ => True := by
  have hresolve : s.Same (resolve q r []) (resolve q' r []) fun _ _ => True :=
    ⟨hscoped s q q' p [] [] r h hr, (hsound s q r [] h.valid h.left).mono fun _ _ _ _ => trivial⟩
  exact hresolve.bind fun id t hst _ =>
    .refl ((sound_maxSize hst.valid id).mono fun _ _ _ _ => trivial)

theorem same_applyOperator (h : s.Together q q' p) (name : String) (operator : Operator)
    {stack : List Operand} (hstack : ∀ operand ∈ stack, operand.Asks p) :
    s.Same (Expression.applyOperator (fun r => do maxSize (← resolve q r [])) name operator stack)
      (Expression.applyOperator (fun r => do maxSize (← resolve q' r [])) name operator stack)
      fun stack _ => ∀ operand ∈ stack, operand.Asks p := by
  have hnumber : ∀ {value : Binary64} {rest : List Operand}, (∀ operand ∈ rest, operand.Asks p) →
      ∀ operand ∈ Operand.number value :: rest, operand.Asks p :=
    fun hrest => List.forall_mem_cons.2 ⟨trivial, hrest⟩
  unfold Expression.applyOperator
  split
  · have hrest := (List.forall_mem_cons.1 (List.forall_mem_cons.1 hstack).2).2
    refine Same.bind (.refl (sound_number h.valid name _)) fun _ t hst _ => ?_
    refine Same.bind (.refl (sound_number hst.valid name _)) fun _ u htu _ => ?_
    exact .pure htu.valid (hnumber hrest)
  · have hrest := (List.forall_mem_cons.1 hstack).2
    refine Same.bind (.refl (sound_number h.valid name _)) fun _ t hst _ => ?_
    exact .pure hst.valid (hnumber hrest)
  · next operand rest =>
    obtain ⟨hoperand, hrest⟩ := List.forall_mem_cons.1 hstack
    have hsize : s.Same
        (Expression.sizeOfOperand (fun r => do maxSize (← resolve q r [])) name operand)
        (Expression.sizeOfOperand (fun r => do maxSize (← resolve q' r [])) name operand)
        fun size _ => size.Asks p := by
      cases operand with
      | constant value => exact .refl (Sound.fail (by simp))
      | type reference =>
        refine (same_sizeOf hsound hscoped h hoperand).bind fun size t hst _ => ?_
        cases size with
        | bounded bytes => exact .pure hst.valid trivial
        | unbounded => exact .refl (Sound.fail (by simp))
    refine hsize.bind fun size t hst hasks => ?_
    exact .pure hst.valid (List.forall_mem_cons.2 ⟨hasks, hrest⟩)
  · exact .refl (Sound.fail (by simp))

theorem same_step (h : s.Together q q' p) {stack : List Operand}
    (hstack : ∀ operand ∈ stack, operand.Asks p) {token : Token}
    (htoken : tokenAsks p token = true) :
    s.Same (Expression.step (fun r => do maxSize (← resolve q r [])) b stack token)
      (Expression.step (fun r => do maxSize (← resolve q' r [])) b stack token)
      fun stack _ => ∀ operand ∈ stack, operand.Asks p := by
  cases token with
  | number | string => exact .pure h.valid (List.forall_mem_cons.2 ⟨trivial, hstack⟩)
  | type reference =>
    have hreference : reference.asks p = true := htoken
    simp only [Expression.step, reference.substitute_of_asks b hreference]
    exact .pure h.valid (List.forall_mem_cons.2 ⟨hreference, hstack⟩)
  | parameter name => cases htoken
  | operator name =>
    simp only [Expression.step]
    split
    · exact same_applyOperator hsound hscoped h name _ hstack
    · exact .refl (Sound.fail (by simp))

theorem same_run (h : s.Together q q' p) {stack : List Operand}
    (hstack : ∀ operand ∈ stack, operand.Asks p) {expr : Expr} (hexpr : exprAsks p expr = true) :
    s.Same (Expression.run (fun r => do maxSize (← resolve q r [])) b stack expr)
      (Expression.run (fun r => do maxSize (← resolve q' r [])) b stack expr)
      fun stack _ => ∀ operand ∈ stack, operand.Asks p := by
  induction expr generalizing s stack with
  | nil => exact .pure h.valid hstack
  | cons token rest ih =>
    rw [exprAsks, Bool.and_eq_true] at hexpr
    refine (same_step hsound hscoped h hstack hexpr.1).bind fun stack t hst hstack => ?_
    exact ih (h.later hst) hstack hexpr.2

theorem same_evaluate (h : s.Together q q' p) {expr : Expr} (hexpr : exprAsks p expr = true) :
    s.Same (evaluate resolve q b expr) (evaluate resolve q' b' expr)
      fun operand _ => operand.Asks p := by
  have hbindings : Expression.run (fun r => do maxSize (← resolve q' r [])) b' [] expr =
      Expression.run (fun r => do maxSize (← resolve q' r [])) b [] expr := run_of_asks _ hexpr []
  unfold evaluate Expression.evaluate
  rw [hbindings]
  refine (same_run hsound hscoped h (List.forall_mem_nil _) hexpr).bind fun stack t hst hstack => ?_
  split
  · exact .pure hst.valid (hstack _ (List.mem_singleton_self _))
  · exact .refl (Sound.fail (by simp))

theorem same_evaluateArguments (h : s.Together q q' p) {arguments : Option (List Expr)}
    (harguments : argumentsAsk p arguments = true) :
    s.Same (evaluateArguments resolve q b arguments) (evaluateArguments resolve q' b' arguments)
      fun _ _ => True := by
  cases arguments with
  | none => exact .pure h.valid trivial
  | some exprs =>
    have hmapM : s.Same (exprs.mapM (evaluate resolve q b)) (exprs.mapM (evaluate resolve q' b'))
        fun _ _ => True := by
      rw [argumentsAsk] at harguments
      induction exprs generalizing s with
      | nil => exact .pure h.valid trivial
      | cons expr rest ih =>
        rw [exprsAsk, Bool.and_eq_true] at harguments
        rw [List.mapM_cons, List.mapM_cons]
        refine (same_evaluate hsound hscoped h harguments.1).bind fun operand t hst _ => ?_
        refine (ih (h.later hst) harguments.2).bind fun operands u htu _ => ?_
        exact .pure htu.valid trivial
    exact hmapM.bind fun operands t hst _ => .pure hst.valid trivial

/-! ### Names -/

omit hsound hscoped

/-- A name that is found in the same place leads to the same type. -/
theorem resolveInstance_eq (h : s.Together q q' p) {name : String} (hname : p name = true)
    (arguments : List Operand) :
    resolveInstance resolve q name arguments false s =
      resolveInstance resolve q' name arguments false s := by
  obtain ⟨home, hfound, hfound'⟩ := h.found name hname
  unfold resolveInstance
  rw [get_bind, get_bind, hfound, hfound']

include hsound

theorem resolveName_eq (h : s.Together q q' p) {name : String} (hname : p name = true)
    (arguments : Option (List Operand)) :
    resolveName resolve q name arguments false s =
      resolveName resolve q' name arguments false s := by
  cases arguments with
  | some arguments => exact resolveInstance_eq h hname arguments
  | none =>
    obtain ⟨home, hfound, hfound'⟩ := h.found name hname
    simp only [resolveName]
    rw [get_bind, get_bind, hfound, hfound']
    have hhome := h.valid.lookup h.left hfound
    refine (Same.refl (sound_resolveEntry hsound h.valid hhome name)).bind_eq fun r t hst _ => ?_
    split
    · rfl
    · exact resolveInstance_eq (h.later hst) hname []
    · rfl

end Expressions

/-! ### References -/

section References

variable (hsound : resolve.Sound) (hscoped : resolve.Scoped)

include hsound hscoped

theorem same_resolve (h : s.Together q q' p) {r : TypeRef} (hr : r.asks p = true) :
    s.Same (resolve q r b) (resolve q' r b') fun _ _ => True :=
  ⟨hscoped s q q' p b b' r h hr, (hsound s q r b h.valid h.left).mono fun _ _ _ _ => trivial⟩

theorem compileArray_congr (h : s.Together q q' p) {element : TypeRef} {size : Expr}
    (helement : element.asks p = true) (hsize : exprAsks p size = true) :
    compileArray resolve q element size b s = compileArray resolve q' element size b' s := by
  rw [compileArray_eq, compileArray_eq, element.substitute_of_asks b helement,
    element.substitute_of_asks b' helement]
  refine (same_evaluate hsound hscoped h hsize).bind_eq fun operand t hst _ => ?_
  refine (Same.refl (sound_orFail hst.valid toSize_ordinary)).bind_eq fun n u htu _ => ?_
  exact (same_resolve hsound hscoped ((h.later hst).later htu) helement).bind_eq fun _ _ _ _ => rfl

theorem compileField_eq (h : s.Together q q' p) (shape : StructShape)
    (partly : PartialStruct) {field : Field} (hfield : fieldAsks p field = true) :
    compileField resolve q b shape partly field s =
      compileField resolve q' b' shape partly field s := by
  cases field with
  | literal key value => rfl
  | constant type value =>
    have htype : type.asks p = true := hfield
    exact (same_resolve hsound hscoped h htype).bind_eq fun _ _ _ _ => rfl
  | typed key type =>
    have htype : type.asks p = true := hfield
    simp only [compileField, type.substitute_of_asks b htype, type.substitute_of_asks b' htype]
    refine (Same.refl (sound_orFail h.valid fieldPlace_ordinary)).bind_eq fun r t hst _ => ?_
    exact (same_resolve hsound hscoped (h.later hst) htype).bind_eq fun _ _ _ _ => rfl

theorem compileFields_eq (h : s.Together q q' p) {shape : StructShape} {partly : PartialStruct}
    (hpartly : partly.Built s shape) {fields : List Field} (hfields : fieldsAsk p fields = true) :
    compileFields resolve q b shape partly fields s =
      compileFields resolve q' b' shape partly fields s := by
  induction fields generalizing s partly with
  | nil => rfl
  | cons field rest ih =>
    rw [fieldsAsk, Bool.and_eq_true] at hfields
    have hfield : s.Same (compileField resolve q b shape partly field)
        (compileField resolve q' b' shape partly field)
        fun partly t => partly.Built t shape :=
      ⟨compileField_eq hsound hscoped h shape partly hfields.1,
        sound_compileField hsound h.valid h.left b hpartly field⟩
    exact hfield.bind_eq fun partly t hst hpartly => ih (h.later hst) hpartly hfields.2

theorem compileStruct_eq (h : s.Together q q' p) {body : StructBody}
    (hbody : bodyAsks p body = true) :
    compileStruct resolve q body b s = compileStruct resolve q' body b' s := by
  obtain ⟨shape, fields, locals⟩ := body
  rw [bodyAsks, Bool.and_eq_true] at hbody
  unfold compileStruct
  dsimp only
  split
  · rfl
  · have hnothing : PartialStruct.Built ⟨[], .zero, 0, 0⟩ s shape :=
      ⟨by simp, by simp, by simp, rfl, rfl⟩
    have hfields : s.Same (compileFields resolve q b shape ⟨[], .zero, 0, 0⟩ fields)
        (compileFields resolve q' b' shape ⟨[], .zero, 0, 0⟩ fields)
        fun partly t => partly.Built t shape :=
      ⟨compileFields_eq hsound hscoped h hnothing hbody.2,
        sound_compileFields hsound h.valid h.left b hnothing fields⟩
    exact hfields.bind_eq fun _ _ _ _ => rfl

theorem resolveInline_eq (h : s.Together q q' p) (whole : TypeRef) {body : StructBody}
    (hbody : bodyAsks p body = true) :
    resolveInline resolve q whole body b s = resolveInline resolve q' whole body b' s := by
  have hlocals : (Definition.struct body).locals? = none := by
    obtain ⟨shape, fields, locals⟩ := body
    rw [bodyAsks, Bool.and_eq_true] at hbody
    exact if_pos hbody.1
  unfold resolveInline
  rw [hlocals]
  have hstruct : s.Same (compileStruct resolve q body b) (compileStruct resolve q' body b')
      fun r t => t.arena.Builds r.1 r.2 :=
    ⟨compileStruct_eq hsound hscoped h hbody, sound_compileStruct hsound h.valid h.left body b⟩
  exact hstruct.bind_eq fun _ _ _ _ => rfl

theorem resolvePath_eq (h : s.Together q q' p) (whole : TypeRef) {segments : List PathSegment}
    (hsegments : segmentsAsk p segments = true) :
    resolvePath resolve whole b q false segments s =
      resolvePath resolve whole b' q' false segments s := by
  cases segments with
  | nil => rfl
  | cons segment rest =>
    obtain ⟨name, arguments⟩ := segment
    rw [segmentsAsk, Bool.and_eq_true, Bool.and_eq_true] at hsegments
    obtain ⟨⟨hname, harguments⟩, hrest⟩ := hsegments
    unfold resolvePath
    refine (same_evaluateArguments hsound hscoped h harguments).bind_eq fun operands t hst _ => ?_
    have ht := h.later hst
    have hfirst : t.Same (resolveName resolve q name operands false)
        (resolveName resolve q' name operands false)
        fun id u => id.index < u.arena.size :=
      ⟨resolveName_eq hsound ht hname operands,
        sound_resolveName hsound ht.valid ht.left name operands false⟩
    refine hfirst.bind_eq fun id u _ _ => ?_
    -- what follows is looked up inside the type, and bindings do not matter to it
    cases rest with
    | nil => rfl
    | cons second rest =>
      have hsame (home : ScopeId) : resolvePath resolve whole b home true (second :: rest) =
          resolvePath resolve whole b' home true (second :: rest) :=
        resolvePath_of_asks resolve whole hrest home true
      simp only [hsame]

theorem scoped_resolveStep : Resolver.Scoped (resolveStep resolve) := by
  intro s q q' p b b' r h hr
  unfold resolveStep
  rw [r.substitute_of_asks b hr, r.substitute_of_asks b' hr]
  obtain ⟨kind, nullable⟩ := r
  cases kind with
  | parameter name =>
    rw [TypeRef.asks] at hr
    cases hr
  | inline body =>
    rw [TypeRef.asks] at hr
    exact resolveInline_eq hsound hscoped h _ hr
  | array element size =>
    rw [TypeRef.asks, Bool.and_eq_true] at hr
    exact compileArray_congr hsound hscoped h hr.1 hr.2
  | path segments =>
    rw [TypeRef.asks] at hr
    exact resolvePath_eq hsound hscoped h _ hr
  | named name arguments =>
    rw [TypeRef.asks, Bool.and_eq_true] at hr
    refine (same_evaluateArguments hsound hscoped h hr.2).bind_eq fun operands t hst _ => ?_
    exact resolveName_eq hsound (h.later hst) hr.1 operands

end References

/-- **References are resolved by what their names lead to.** -/
theorem scoped_resolveType (levels : ℕ) : Resolver.Scoped (resolveType levels) := by
  induction levels with
  | zero => exact fun _ _ _ _ _ _ _ _ _ => rfl
  | succ levels ih => exact scoped_resolveStep (sound_resolveType levels) ih

end Session

end Wireform
