import Wireform.Proofs.Session.Layouts
import Wireform.Proofs.Session.Twins

/-!
# Compiling in twins

In twins the same is compiled in two ways. At a marked place, under the same bindings,
everything that is found is the same. At any other place the bindings agree beyond `b`, and what
is compiled there avoids the parameters that `b` replaces, beside those of the templates around
it, so that the same arguments are put in. Both ways the results are the same, and what is
compiled at a marked place is marked.

* `Stance`: the two ways.
* `tandem_compileBlock`: a block, given what resolves the references inside it.
-/

namespace Wireform.Session

/-- How two computations stand: at a marked place under the same bindings, or at any place under
bindings that agree beyond `b` and on the parameters of the templates around. -/
inductive Stance (b : Bindings) (own : List String) (m : Marks) (q : ScopeId) :
    Bool → Bindings → Bindings → Prop where
  | marked {x : Bindings} (hq : m.scopes q) : Stance b own m q true x x
  | parted {x y : Bindings} (h : TypeRef.Beyond b own x y) : Stance b own m q false x y

variable {b : Bindings} {own : List String} {m m' : Marks} {s s' t t' : Session} {q home : ScopeId}
  {marked : Bool} {x y : Bindings}

namespace Stance

theorem later (h : Stance b own m q marked x y) (hlater : Later m s m' s')
    (htwins : Twins b m s t) :
    Stance b own m' q marked x y := by
  cases h with
  | marked hq => exact .marked (hlater.markedScope htwins hq)
  | parted h => exact .parted h

/-- The same at another place. -/
theorem move (h : Stance b own m q marked x y) (other : ScopeId)
    (hother : marked = true → m.scopes other) :
    Stance b own m other marked x y := by
  cases h with
  | marked => exact .marked (hother rfl)
  | parted h => exact .parted h

theorem place (h : Stance b own m q marked x y) : marked = true → m.scopes q := by
  rintro rfl
  cases h with
  | marked hq => exact hq

/-- The same arguments are put in, and they leave no parameter that `b` replaces. -/
theorem put (h : Stance b own m q marked x y) {types : List String}
    (hown : types ⊆ own) {r : TypeRef} (hr : marked = false → r.avoidsIn b true types own = true) :
    r.substitute y = r.substitute x ∧
      (marked = false → (r.substitute x).avoidsIn b true types [] = true) := by
  cases h with
  | marked => exact ⟨rfl, nofun⟩
  | parted h =>
    exact ⟨(TypeRef.substitute_congr h hown r (hr rfl)).symm,
      fun _ => TypeRef.avoidsIn_substitute h.clears r (hr rfl)⟩

theorem substitute (h : Stance b own m q marked x y) {r : TypeRef}
    (hr : marked = false → r.avoidsIn b true own own = true) : r.substitute y = r.substitute x ∧
      (marked = false → (r.substitute x).avoidsIn b true own own = true) := by
  have hboth := h.put (List.Subset.refl own) hr
  exact ⟨hboth.1, fun hparted =>
    TypeRef.avoidsIn_mono _ (List.Subset.refl own) (List.nil_subset own) (hboth.2 hparted)⟩

end Stance

/-- The same is resolved in twins, and what is resolved at a marked place is marked. -/
def Resolver.InTandem (b : Bindings) (resolve : Resolver) : Prop :=
  ∀ {own marked m s t q r x y}, Twins b m s t → Stance b own m q marked x y →
    (marked = false → r.avoidsIn b true own own = true) →
    Tandem b m s t (resolve q r x) (resolve q r y) fun m' id => marked = true → m'.types id

theorem tandem_maxSize (h : Twins b m s t) (id : TypeId) :
    Tandem b m s t (maxSize id) (maxSize id) fun _ _ => True := by
  refine Tandem.get_bind ?_
  rw [h.arena]
  exact Tandem.pure h trivial

variable {resolve : Resolver} (hr : resolve.InTandem b)

/-! ### Expressions -/

section Expressions

variable {sizeOf : TypeRef → Compile Size}
  (hsize : ∀ {m s t} (r : TypeRef), Twins b m s t → (marked = true → m.scopes q) →
    (marked = false → r.avoids b = true) → Tandem b m s t (sizeOf r) (sizeOf r) fun _ _ => True)

theorem tandem_number (h : Twins b m s t) (operator : String) (operand : Operand) :
    Tandem b m s t (Expression.number operator operand) (Expression.number operator operand)
      fun _ _ => True := by
  cases operand with
  | constant value =>
    cases value with
    | number => exact Tandem.pure h trivial
    | string => exact Tandem.fail _ _
  | type => exact Tandem.fail _ _

include hsize

theorem tandem_sizeOfOperand (h : Twins b m s t) (hq : marked = true → m.scopes q)
    (operator : String) {operand : Operand} (hoperand : marked = false → operand.avoids b = true) :
    Tandem b m s t (Expression.sizeOfOperand sizeOf operator operand)
      (Expression.sizeOfOperand sizeOf operator operand) fun _ size => size.avoids b = true := by
  cases operand with
  | constant => exact Tandem.fail _ _
  | type reference =>
    refine Tandem.bind (hsize reference h hq hoperand) fun m' size s' t' _ h' _ => ?_
    cases size with
    | bounded => exact Tandem.pure h' rfl
    | unbounded => exact Tandem.fail _ _

theorem tandem_applyOperator (h : Twins b m s t) (hq : marked = true → m.scopes q) (name : String)
    (operator : Operator) {stack : List Operand}
    (hstack : marked = false → ∀ operand ∈ stack, operand.avoids b = true) :
    Tandem b m s t (Expression.applyOperator sizeOf name operator stack)
      (Expression.applyOperator sizeOf name operator stack)
      fun _ left => marked = false → ∀ operand ∈ left, operand.avoids b = true := by
  have hcons : ∀ {one : Operand} {rest : List Operand}, one.avoids b = true → rest ⊆ stack →
      marked = false → ∀ operand ∈ one :: rest, operand.avoids b = true := by
    intro one rest hone hrest hparted operand hmem
    rcases List.mem_cons.1 hmem with rfl | hmem
    · exact hone
    · exact hstack hparted operand (hrest hmem)
  unfold Expression.applyOperator
  split
  · refine Tandem.bind (tandem_number h name _) fun _ _ _ _ _ h' _ => ?_
    refine Tandem.bind (tandem_number h' name _) fun _ _ _ _ _ h'' _ => ?_
    exact Tandem.pure h''
      (hcons rfl fun _ hmem => List.mem_cons_of_mem _ (List.mem_cons_of_mem _ hmem))
  · refine Tandem.bind (tandem_number h name _) fun _ _ _ _ _ h' _ => ?_
    exact Tandem.pure h' (hcons rfl fun _ hmem => List.mem_cons_of_mem _ hmem)
  · refine Tandem.bind (tandem_sizeOfOperand hsize h hq name fun hparted =>
      hstack hparted _ List.mem_cons_self) fun _ size _ _ _ h' hone => ?_
    exact Tandem.pure h' (hcons hone fun _ hmem => List.mem_cons_of_mem _ hmem)
  · exact Tandem.fail _ _

theorem tandem_step (h : Twins b m s t) (hst : Stance b own m q marked x y) {stack : List Operand}
    (hstack : marked = false → ∀ operand ∈ stack, operand.avoids b = true) {token : Token}
    (htoken : marked = false → tokenAvoids b true own token = true) :
    Tandem b m s t (Expression.step sizeOf x stack token) (Expression.step sizeOf y stack token)
      fun _ left => marked = false → ∀ operand ∈ left, operand.avoids b = true := by
  have hpush : ∀ {one : Operand}, (marked = false → one.avoids b = true) →
      Tandem b m s t (pure (one :: stack)) (pure (one :: stack))
        fun _ left => marked = false → ∀ operand ∈ left, operand.avoids b = true :=
    fun hone => Tandem.pure h fun hparted =>
      List.forall_mem_cons.2 ⟨hone hparted, hstack hparted⟩
  cases token with
  | number | string => exact hpush fun _ => rfl
  | type reference =>
    have hboth := hst.put (List.nil_subset own) htoken
    simp only [Expression.step]
    rw [hboth.1]
    exact hpush hboth.2
  | parameter name =>
    have hsame : y.get? name = x.get? name := by
      cases hst with
      | marked => rfl
      | parted hbeyond =>
        have hspared := htoken rfl
        rw [tokenAvoids, Bool.not_true, Bool.false_or] at hspared
        exact (hbeyond.operands name hspared).symm
    simp only [Expression.step]
    rw [hsame]
    cases hget : x.get? name with
    | none => exact Tandem.fail _ _
    | some bound =>
      refine hpush ?_
      rintro rfl
      cases hst with
      | parted hbeyond => exact hbeyond.avoids name bound hget
  | operator name =>
    simp only [Expression.step]
    cases Operator.ofName? name with
    | none => exact Tandem.fail _ _
    | some operator => exact tandem_applyOperator hsize h hst.place name operator hstack

theorem tandem_run (h : Twins b m s t) (hst : Stance b own m q marked x y) {stack : List Operand}
    (hstack : marked = false → ∀ operand ∈ stack, operand.avoids b = true) {expr : Expr}
    (hexpr : marked = false → exprAvoids b true own expr = true) :
    Tandem b m s t (Expression.run sizeOf x stack expr) (Expression.run sizeOf y stack expr)
      fun _ left => marked = false → ∀ operand ∈ left, operand.avoids b = true := by
  induction expr generalizing m s t stack with
  | nil => exact Tandem.pure h hstack
  | cons token rest ih =>
    have hboth : marked = false → tokenAvoids b true own token = true ∧
        exprAvoids b true own rest = true := by
      intro hparted
      have hall := hexpr hparted
      rwa [exprAvoids, Bool.and_eq_true] at hall
    refine Tandem.bind (tandem_step hsize h hst hstack fun hparted => (hboth hparted).1)
      fun m' left s' t' hlater h' hleft => ?_
    exact ih h' (hst.later hlater h) hleft fun hparted => (hboth hparted).2

end Expressions

include hr

theorem tandem_evaluate (h : Twins b m s t) (hst : Stance b own m q marked x y) {expr : Expr}
    (hexpr : marked = false → exprAvoids b true own expr = true) :
    Tandem b m s t (evaluate resolve q x expr) (evaluate resolve q y expr)
      fun _ operand => marked = false → operand.avoids b = true := by
  -- sizes are those of types that are resolved without bindings
  have hsize : ∀ {m s t} (r : TypeRef), Twins b m s t → (marked = true → m.scopes q) →
      (marked = false → r.avoids b = true) →
      Tandem b m s t (do maxSize (← resolve q r [])) (do maxSize (← resolve q r []))
      fun _ _ => True := by
    intro m s t r h hq hr'
    have hempty : Stance b [] m q marked [] [] := by
      cases marked with
      | true => exact .marked (hq rfl)
      | false => exact .parted (.nil b)
    exact Tandem.bind (hr h hempty hr') fun _ id _ _ _ h' _ => tandem_maxSize h' id
  have hnone : marked = false → ∀ operand ∈ ([] : List Operand), operand.avoids b = true :=
    fun _ _ hmem => nomatch hmem
  refine Tandem.bind (tandem_run hsize h hst hnone hexpr) fun m' stack s' t' _ h' hstack => ?_
  split
  · exact Tandem.pure h' fun hparted => hstack hparted _ List.mem_cons_self
  · exact Tandem.fail _ _

theorem tandem_evaluateArguments (h : Twins b m s t) (hst : Stance b own m q marked x y)
    {arguments : Option (List Expr)}
    (harguments : marked = false → argumentsAvoid b true own arguments = true) :
    Tandem b m s t (evaluateArguments resolve q x arguments)
      (evaluateArguments resolve q y arguments)
      fun _ operands => marked = false → ∀ list, operands = some list → ∀ operand ∈ list,
        operand.avoids b = true := by
  cases arguments with
  | none => exact Tandem.pure h fun _ _ hnone => nomatch hnone
  | some arguments =>
    have hall : Tandem b m s t (arguments.mapM (evaluate resolve q x))
        (arguments.mapM (evaluate resolve q y))
        fun _ list => marked = false → ∀ operand ∈ list, operand.avoids b = true := by
      induction arguments generalizing m s t with
      | nil => exact Tandem.pure h fun _ _ hmem => nomatch hmem
      | cons expr rest ih =>
        have hboth : marked = false → exprAvoids b true own expr = true ∧
            exprsAvoid b true own rest = true := by
          intro hparted
          have hall := harguments hparted
          rwa [argumentsAvoid, exprsAvoid, Bool.and_eq_true] at hall
        rw [List.mapM_cons, List.mapM_cons]
        refine Tandem.bind (tandem_evaluate hr h hst fun hparted => (hboth hparted).1)
          fun m' operand s' t' hlater h' hoperand => ?_
        refine Tandem.bind (ih h' (hst.later hlater h) fun hparted => (hboth hparted).2)
          fun m'' list s'' t'' _ h'' hlist => ?_
        exact Tandem.pure h'' fun hparted =>
          List.forall_mem_cons.2 ⟨hoperand hparted, hlist hparted⟩
    refine Tandem.bind hall fun m' list s' t' _ h' hlist => ?_
    refine Tandem.pure h' fun hparted found hfound => ?_
    obtain rfl := Option.some.inj hfound
    exact hlist hparted

/-! ### Layouts -/

theorem tandem_compileField (h : Twins b m s t) (hst : Stance b own m q marked x y)
    (shape : StructShape) (p : PartialStruct) {field : Field}
    (hfield : marked = false → fieldAvoids b true own own field = true) :
    Tandem b m s t (compileField resolve q x shape p field) (compileField resolve q y shape p field)
      fun _ _ => True := by
  cases field with
  | constant type value =>
    refine Tandem.bind (hr h hst hfield) fun m' id s' t' _ h' _ => ?_
    refine Tandem.bind (tandem_maxSize h' id) fun m'' size s'' t'' _ h'' _ => ?_
    refine Tandem.get_bind ?_
    rw [h''.options]
    exact Tandem.pure h'' trivial
  | literal key value =>
    exact Tandem.bind (Tandem.orFail (p := fun _ _ => True) h fun _ _ => trivial)
      fun _ _ _ _ _ h' _ => Tandem.pure h' trivial
  | typed key type =>
    simp only [compileField]
    rw [(hst.substitute hfield).1]
    refine Tandem.bind (Tandem.orFail (p := fun _ _ => True) h fun _ _ => trivial)
      fun m' place s' t' hlater h' _ => ?_
    refine Tandem.bind (hr h' (hst.later hlater h) hfield) fun m'' id s'' t'' _ h'' _ => ?_
    exact Tandem.bind (tandem_maxSize h'' id) fun _ _ _ _ _ h''' _ => Tandem.pure h''' trivial

theorem tandem_compileFields (h : Twins b m s t) (hst : Stance b own m q marked x y)
    (shape : StructShape) (p : PartialStruct) {fields : List Field}
    (hfields : marked = false → fieldsAvoid b true own own fields = true) :
    Tandem b m s t (compileFields resolve q x shape p fields)
      (compileFields resolve q y shape p fields)
      fun _ _ => True := by
  induction fields generalizing m s t p with
  | nil => exact Tandem.pure h trivial
  | cons field rest ih =>
    have hboth : marked = false → fieldAvoids b true own own field = true ∧
        fieldsAvoid b true own own rest = true := by
      intro hparted
      have hall := hfields hparted
      rwa [fieldsAvoid, Bool.and_eq_true] at hall
    refine Tandem.bind (tandem_compileField hr h hst shape p fun hparted => (hboth hparted).1)
      fun m' p' s' t' hlater h' _ => ?_
    exact ih h' (hst.later hlater h) p' fun hparted => (hboth hparted).2

theorem tandem_compileStruct (h : Twins b m s t) (hst : Stance b own m q marked x y)
    {body : StructBody} (hbody : marked = false → bodyAvoids b true own own body = true) :
    Tandem b m s t (compileStruct resolve q body x) (compileStruct resolve q body y)
      fun _ r => ∀ target, r.1 ≠ .synonym target := by
  have hfields : marked = false → fieldsAvoid b true own own body.fields = true := by
    intro hparted
    have hall := hbody hparted
    obtain ⟨shape, fields, locals⟩ := body
    rw [bodyAvoids, Bool.and_eq_true] at hall
    exact hall.1
  unfold compileStruct
  split
  · exact Tandem.pure h nofun
  · exact Tandem.bind (tandem_compileFields hr h hst _ _ hfields)
      fun _ _ _ _ _ h' _ => Tandem.pure h' nofun

omit hr in
/-- A type is added on both sides, with a mark if what it consists of has one. -/
theorem tandem_push (h : Twins b m s t) (marked : Bool) {type : CompiledType}
    (hfits : marked = true → m.Fits type) :
    Tandem b m s t (push type) (push type) fun m' id => marked = true → m'.types id := by
  have hcontent : marked = true → ∀ found, some type = some found → m.Fits found :=
    fun hmarked found hfound => Option.some.inj hfound ▸ hfits hmarked
  obtain ⟨hlater, htwins⟩ := h.slot (s.arena.size_push type) (s.arena.get?_push type) hcontent
  have hpush : push type t = .ok ⟨s.arena.size⟩ { t with arena := (s.arena.push type).2 } := by
    rw [← h.arena]
    rfl
  exact Tandem.ok rfl hpush hlater htwins fun hmarked => Or.inr ⟨hmarked, rfl⟩

theorem tandem_compileArray (h : Twins b m s t) (hst : Stance b own m q marked x y)
    {element : TypeRef} {size : Expr}
    (helement : marked = false → element.avoidsIn b true own own = true)
    (hexpr : marked = false → exprAvoids b true own size = true) :
    Tandem b m s t (compileArray resolve q element size x) (compileArray resolve q element size y)
      fun m' id => marked = true → m'.types id := by
  have hboth := hst.substitute helement
  rw [compileArray_eq, compileArray_eq, hboth.1]
  refine Tandem.bind (tandem_evaluate hr h hst hexpr) fun m₁ operand s₁ t₁ hlater₁ h₁ _ => ?_
  have hst₁ := hst.later hlater₁ h
  refine Tandem.bind (Tandem.orFail (p := fun _ _ => True) h₁ fun _ _ => trivial)
    fun m₂ size s₂ t₂ hlater₂ h₂ _ => ?_
  refine Tandem.bind (hr h₂ (hst₁.later hlater₂ h₁) hboth.2) fun m₃ id s₃ t₃ _ h₃ _ => ?_
  refine Tandem.get_bind ?_
  rw [h₃.arena]
  exact tandem_push h₃ marked fun _ => ⟨nofun, nofun⟩

omit hr in
theorem tandem_sharedEmptyTuple (h : Twins b m s t) :
    Tandem b m s t sharedEmptyTuple sharedEmptyTuple fun _ _ => True := by
  unfold sharedEmptyTuple
  refine Tandem.get_bind ?_
  rw [h.emptyTuple]
  cases s.emptyTuple with
  | some id => exact Tandem.pure h trivial
  | none =>
    refine Tandem.bind (tandem_push h false nofun) fun m' id s' t' _ h' _ => ?_
    refine Tandem.bind (p := fun _ _ => True) ?_ fun _ _ _ _ _ h'' _ => Tandem.pure h'' trivial
    obtain ⟨hlater, htwins⟩ := h'.aside h'.depth (rfl : some id = some id) s'.journal t'.journal
    exact Tandem.ok rfl rfl hlater htwins trivial

omit hr in
theorem tandem_variantLayout (h : Twins b m s t) (shape : EnumShape) (target : String)
    (entry : EnumEntry) (payload : TypeId) :
    Tandem b m s t (variantLayout shape target entry payload)
      (variantLayout shape target entry payload)
      fun _ _ => True := by
  unfold variantLayout
  refine Tandem.get_bind ?_
  rw [h.arena]
  cases shape with
  | object => exact Tandem.pure h trivial
  | tuple =>
    dsimp only
    split
    · exact Tandem.bind (tandem_sharedEmptyTuple h) fun _ _ _ _ _ h' _ => Tandem.pure h' trivial
    · exact Tandem.pure h trivial

theorem tandem_compileVariants (h : Twins b m s t) (hst : Stance b own m q marked x y)
    (shape : EnumShape) (target : String) (greatest : Size) (entries : List EnumEntry) :
    Tandem b m s t (compileVariants resolve q x shape target greatest entries)
      (compileVariants resolve q y shape target greatest entries) fun _ _ => True := by
  induction entries generalizing m s t greatest with
  | nil => exact Tandem.pure h trivial
  | cons entry rest ih =>
    refine Tandem.bind (hr h hst fun _ => rfl) fun m₁ payload s₁ t₁ hlater₁ h₁ _ => ?_
    have hst₁ := hst.later hlater₁ h
    refine Tandem.bind (tandem_variantLayout h₁ shape target entry payload)
      fun m₂ variant s₂ t₂ hlater₂ h₂ _ => ?_
    have hst₂ := hst₁.later hlater₂ h₁
    refine Tandem.bind (tandem_maxSize h₂ variant.payload) fun m₃ size s₃ t₃ hlater₃ h₃ _ => ?_
    refine Tandem.bind (ih h₃ (hst₂.later hlater₃ h₂) (greatest.max size)) fun _ _ _ _ _ h₄ _ => ?_
    exact Tandem.pure h₄ trivial

theorem tandem_compileEnum (h : Twins b m s t) (hst : Stance b own m q marked x y) {body : EnumBody}
    (hbody : marked = false → definitionAvoids b own (.enum body) = true) :
    Tandem b m s t (compileEnum resolve q body x) (compileEnum resolve q body y)
      fun _ r => ∀ target, r.1 ≠ .synonym target := by
  unfold compileEnum
  refine Tandem.get_bind ?_
  rw [h.options]
  have htag : marked = false →
      (body.tagType.getD (.named s.options.defaultTagType)).avoidsIn b true own own = true := by
    intro hparted
    have hall := hbody hparted
    obtain ⟨shape, tag, target, entries, inner⟩ := body
    rw [definitionAvoids, Bool.and_eq_true] at hall
    cases tag with
    | none => rfl
    | some tag => exact hall.1
  refine Tandem.bind (hr h hst htag) fun m₁ tag s₁ t₁ hlater₁ h₁ _ => ?_
  refine Tandem.bind (tandem_compileVariants hr h₁ (hst.later hlater₁ h) _ _ _ _)
    fun m₂ r s₂ t₂ _ h₂ _ => ?_
  refine Tandem.bind (tandem_maxSize h₂ tag)
    fun _ _ _ _ _ h₃ _ => Tandem.pure h₃ fun target heq => ?_
  cases heq

theorem tandem_typeArgument (h : Twins b m s t) (hq : marked = true → m.scopes q)
    (builtin : Builtin) {operand : Operand} (hoperand : marked = false → operand.avoids b = true) :
    Tandem b m s t (typeArgument resolve q builtin operand) (typeArgument resolve q builtin operand)
      fun m' id => marked = true → m'.types id := by
  cases operand with
  | constant => exact Tandem.fail _ _
  | type reference =>
    cases marked with
    | true => exact hr h (.marked (hq rfl)) hoperand
    | false => exact hr h (.parted (.nil b)) hoperand

theorem tandem_compileBuiltin (h : Twins b m s t) (hq : marked = true → m.scopes q)
    (builtin : Builtin) {arguments : List Operand}
    (harguments : marked = false → ∀ operand ∈ arguments, operand.avoids b = true) :
    Tandem b m s t (compileBuiltin resolve q builtin arguments)
      (compileBuiltin resolve q builtin arguments)
      fun _ r => ∀ target, r.1 ≠ .synonym target := by
  unfold compileBuiltin
  split
  · split
    · exact Tandem.pure h nofun
    · exact Tandem.fail _ _
  · exact Tandem.fail _ _
  · refine Tandem.bind
      (tandem_typeArgument hr h hq _ fun hparted => harguments hparted _ List.mem_cons_self)
      fun _ _ _ _ _ h' _ => ?_
    exact Tandem.pure h' nofun
  · refine Tandem.bind
      (tandem_typeArgument hr h hq _ fun hparted => harguments hparted _ List.mem_cons_self)
      fun _ id _ _ _ h₁ _ => ?_
    refine Tandem.bind (Tandem.orFail (p := fun _ _ => True) h₁ fun _ _ => trivial)
      fun _ _ _ _ _ h₂ _ => ?_
    exact Tandem.bind (tandem_maxSize h₂ id) fun _ _ _ _ _ h₃ _ => Tandem.pure h₃ nofun
  · refine Tandem.bind
      (tandem_typeArgument hr h hq _ fun hparted => harguments hparted _ List.mem_cons_self)
      fun _ _ _ _ _ h₁ _ => ?_
    refine Tandem.bind (Tandem.orFail (p := fun _ _ => True) h₁ fun _ _ => trivial)
      fun _ _ _ _ _ h₂ _ => ?_
    exact Tandem.pure h₂ nofun
  · refine Tandem.bind (Tandem.orFail (p := fun _ _ => True) h fun _ _ => trivial)
      fun _ _ _ _ _ h₁ _ => ?_
    exact Tandem.pure h₁ nofun
  · exact Tandem.fail _ _

/-! ### Blocks -/

omit hr in
/-- The namespace of local definitions is opened on both sides. -/
theorem tandem_openLocals (h : Twins b m s t) (hst : Stance b own m q marked x y)
    {locals : Option (Assoc Definition)}
    (hlocals : marked = false → ∀ definitions, locals = some definitions →
      definitionsAvoid b own definitions = true) :
    Tandem b m s t (openLocals q x locals) (openLocals q y locals)
      fun m' nested => marked = true → ∀ c, nested = some c → m'.scopes c := by
  cases locals with
  | none => exact Tandem.pure h fun _ _ hnone => nomatch hnone
  | some definitions =>
    have hsame : marked = true → m.scopes q ∧ y = x := by
      rintro rfl
      cases hst with
      | marked hq => exact ⟨hq, rfl⟩
    have hbeyond : marked = false →
        TypeRef.Beyond b own x y ∧ definitionsAvoid b own definitions = true := by
      rintro rfl
      cases hst with
      | parted hbeyond => exact ⟨hbeyond, hlocals rfl definitions rfl⟩
    obtain ⟨hlater, htwins⟩ := h.openScope hsame hbeyond
    have hopen : openLocals q y (some definitions) t =
        .ok (some ⟨s.scopes.size⟩)
        { t with scopes := t.scopes.push ⟨some q, definitions, [], y⟩ } := by
      rw [← h.size]
      rfl
    exact Tandem.ok rfl hopen hlater htwins
      fun hmarked c hc => Or.inr ⟨hmarked, (Option.some.inj hc).symm⟩

omit hr in
theorem tandem_insert (h : Twins b m s t) {entry : Entry} (hentry : m.Leads b s home entry)
    (key : String) :
    Tandem b m s t (insert home key entry) (insert home key entry) fun _ _ => True := by
  obtain ⟨hlater, htwins⟩ := h.enter hentry key
  obtain ⟨hlater', htwins'⟩ :=
    htwins.aside htwins.depth htwins.emptyTuple ((home, key) :: s.journal)
      ((home, key) :: t.journal)
  exact Tandem.ok rfl rfl (hlater.trans hlater') htwins' trivial

omit hr in
theorem tandem_settle (h : Twins b m s t) {entry : Entry} (hentry : m.Leads b s home entry)
    (key : String) :
    Tandem b m s t (settle home key entry) (settle home key entry) fun _ _ => True := by
  obtain ⟨hlater, htwins⟩ := h.enter hentry key
  exact Tandem.ok rfl rfl hlater htwins trivial

/-- None of the parameters that the bindings replace occurs in what is compiled into a slot, beside
those of the templates around it. -/
def BlockBody.Avoids (b : Bindings) (own : List String) : BlockBody → Prop
  | .definition body => definitionAvoids b own body = true
  | .builtin _ arguments => ∀ operand ∈ arguments, operand.avoids b = true

omit hr in
theorem BlockBody.Avoids.locals {body : BlockBody} (h : body.Avoids b own)
    {definitions : Assoc Definition} (hlocals : body.locals? = some definitions) :
    definitionsAvoid b own definitions = true := by
  cases body with
  | definition => exact Definition.locals_avoid h hlocals
  | builtin => cases hlocals

theorem tandem_compileDefinition (h : Twins b m s t) (hst : Stance b own m q marked x y)
    (ident : String) {definition : Definition}
    (hdefinition : marked = false → definitionAvoids b own definition = true) :
    Tandem b m s t (compileDefinition resolve q ident definition x)
      (compileDefinition resolve q ident definition y)
      fun m' r => marked = true → ∀ target, r.1 = .synonym target → m'.types target := by
  have hno : ∀ {r : Layout × Size} {m' : Marks}, (∀ target, r.1 ≠ .synonym target) →
      marked = true → ∀ target, r.1 = .synonym target → m'.types target :=
    fun hno _ target htarget => absurd htarget (hno target)
  cases definition with
  | struct body => exact Tandem.mono (tandem_compileStruct hr h hst hdefinition) fun _ _ => hno
  | enum body => exact Tandem.mono (tandem_compileEnum hr h hst hdefinition) fun _ _ => hno
  | template => exact Tandem.fail _ _
  | synonym target =>
    simp only [compileDefinition]
    rw [(hst.substitute hdefinition).1]
    split
    · exact Tandem.fail _ _
    · refine Tandem.bind (hr h hst hdefinition) fun m₁ id s₁ t₁ _ h₁ hid => ?_
      refine Tandem.bind (tandem_maxSize h₁ id) fun m₂ size s₂ t₂ hlater₂ h₂ _ => ?_
      refine Tandem.pure h₂ fun hmarked target htarget => ?_
      obtain rfl := Layout.synonym.inj htarget
      exact hlater₂.markedType h₁ (hid hmarked)

theorem tandem_compileBody (h : Twins b m s t) (hst : Stance b own m home marked x y)
    {nested : Option ScopeId} (hnested : marked = true → ∀ c, nested = some c → m.scopes c)
    (ident : String) {body : BlockBody} (hbody : marked = false → body.Avoids b own) :
    Tandem b m s t (compileBody resolve home nested ident x body)
      (compileBody resolve home nested ident y body)
      fun m' r => marked = true → ∀ target, r.1 = .synonym target → m'.types target := by
  cases body with
  | definition definition =>
    refine tandem_compileDefinition hr h (hst.move (nested.getD home) fun hmarked => ?_) ident hbody
    cases nested with
    | none => exact hst.place hmarked
    | some c => exact hnested hmarked c rfl
  | builtin builtin arguments =>
    exact Tandem.mono (tandem_compileBuiltin hr h hst.place builtin hbody)
      fun _ _ hno _ target htarget => absurd htarget (hno target)

omit hr in
theorem tandem_lockEntry (h : Twins b m s t)
    (hplace : m.scopes home ↔ marked = true) {slot : TypeId} (hslot : m.types slot ↔ marked = true)
    (hlt : slot.index < s.arena.size) {nested : Option ScopeId}
    (hnested : marked = true → ∀ c, nested = some c → m.scopes c) (key : Option String) :
    Tandem b m s t (lockEntry home slot nested key) (lockEntry home slot nested key)
      fun _ _ => True := by
  cases key with
  | none => exact Tandem.pure h trivial
  | some key =>
    refine tandem_insert h ?_ key
    exact {
      slot := fun id inner heq => (Entry.locked.inj heq).1 ▸ hlt
      compiled := nofun
      locked := fun hhome id inner heq => (Entry.locked.inj heq).1 ▸ hslot.2 (hplace.1 hhome)
      inner := fun id c heq hid =>
        have heq := Entry.locked.inj heq
        hnested (hslot.1 (heq.1 ▸ hid)) c heq.2
      template := nofun }

omit hr in
/-- A block begins in the same slot on both sides, which gets a mark at a marked place. -/
theorem tandem_beginBlock {α : Type} {f g : TypeId × Option ScopeId → Compile α}
    {post : Marks → α → Prop} (h : Twins b m s t) (hst : Stance b own m home marked x y)
    (hlt : home.index < s.scopes.size) (hplace : m.scopes home ↔ marked = true)
    (key : Option String) {locals : Option (Assoc Definition)}
    (hlocals : marked = false → ∀ definitions, locals = some definitions →
      definitionsAvoid b own definitions = true)
    (hrest : ∀ m' slot nested s' t', Later m s m' s' → Twins b m' s' t' →
      slot.index < s'.arena.size →
      (m'.types slot ↔ marked = true) → (marked = true → ∀ c, nested = some c → m'.scopes c) →
      Tandem b m' s' t' (f (slot, nested)) (g (slot, nested)) post) :
    Tandem b m s t (beginBlock home key locals x >>= f)
      (beginBlock home key locals y >>= g) post := by
  unfold beginBlock
  simp only [bind_assoc]
  have hempty : ∀ id : TypeId, s.arena.reserve.2.get? id =
      if id.index = s.arena.size then none else s.arena.get? id := by
    intro id
    rw [Arena.get?_reserve]
    split
    · next heq => exact Option.eq_none_iff_forall_ne_some.2 fun type htype =>
        Nat.ne_of_lt (s.arena.lt_size_of_get? htype) heq
    · rfl
  have hfits : marked = true → ∀ type, none = some type → m.Fits type := nofun
  obtain ⟨hlater₁, h₁⟩ := h.slot s.arena.size_reserve hempty hfits
  have hreserve : reserve t = .ok ⟨s.arena.size⟩ { t with arena := s.arena.reserve.2 } := by
    rw [← h.arena]
    rfl
  refine Tandem.bind_ok rfl hreserve hlater₁ ?_
  have hlt₁ : s.arena.size < s.arena.reserve.2.size := s.arena.size_reserve ▸ Nat.lt_succ_self _
  have hslot : (m.withType marked ⟨s.arena.size⟩).types ⟨s.arena.size⟩ ↔ marked = true :=
    ⟨fun hor => hor.elim (fun hold => absurd (h.types _ hold) (Nat.lt_irrefl _)) And.left,
      fun hmarked => Or.inr ⟨hmarked, rfl⟩⟩
  refine Tandem.bind (tandem_openLocals h₁ (hst.later hlater₁ h) hlocals)
    fun m₂ nested s₂ t₂ hlater₂ h₂ hnested => ?_
  have hplace₂ := ((hlater₁.trans hlater₂).scopes home hlt).trans hplace
  have hslot₂ := (hlater₂.types ⟨s.arena.size⟩ hlt₁).trans hslot
  have hlt₂ := hlt₁.trans_le hlater₂.slots_le
  refine Tandem.bind (tandem_lockEntry h₂ hplace₂ hslot₂ hlt₂ hnested key)
    fun m₃ _ s₃ t₃ hlater₃ h₃ _ => ?_
  obtain ⟨hlater₄, h₄⟩ := h₃.aside (congrArg (· + 1) h₃.depth) h₃.emptyTuple s₃.journal t₃.journal
  refine Tandem.bind_ok rfl rfl hlater₄ ?_
  exact hrest m₃ _ nested _ _ (((hlater₁.trans hlater₂).trans hlater₃).trans hlater₄) h₄
    (hlt₂.trans_le hlater₃.slots_le) ((hlater₃.types _ hlt₂).trans hslot₂)
    fun hmarked c hc => hlater₃.markedScope h₂ (hnested hmarked c hc)

omit hr in
/-- A block ends on both sides with the same type. -/
theorem tandem_endBlock (h : Twins b m s t) (hplace : m.scopes home ↔ marked = true) {slot : TypeId}
    (hslot : m.types slot ↔ marked = true) {type : CompiledType}
    (hfits : marked = true → m.Fits type) (key : Option String) :
    Tandem b m s t (endBlock home key slot type) (endBlock home key slot type) fun _ _ => True := by
  obtain ⟨hlater₁, h₁⟩ := h.aside (congrArg (· - 1) h.depth) h.emptyTuple s.journal t.journal
  refine Tandem.bind_ok rfl rfl hlater₁ ?_
  have hfits : m.types slot → m.Fits type := fun hmark => hfits (hslot.1 hmark)
  obtain ⟨hlater₂, h₂⟩ := h₁.fill hfits
  refine Tandem.bind_ok rfl rfl hlater₂ ?_
  cases key with
  | none => exact Tandem.pure h₂ trivial
  | some key =>
    refine tandem_settle h₂ ?_ key
    exact {
      slot := nofun
      compiled := fun hhome id hid => Entry.compiled.inj hid ▸ hslot.2 (hplace.1 hhome)
      locked := nofun
      inner := nofun
      template := nofun }

/-- **A block is compiled in tandem**, given what resolves the references inside it. -/
theorem tandem_compileBlock (h : Twins b m s t) (hst : Stance b own m home marked x y)
    (hlt : home.index < s.scopes.size) (hplace : m.scopes home ↔ marked = true)
    (key : Option String) (ident : String) {body : BlockBody}
    (hbody : marked = false → body.Avoids b own) :
    Tandem b m s t (compileBlock resolve home key ident body x)
      (compileBlock resolve home key ident body y)
      fun m' id => marked = true → m'.types id := by
  unfold compileBlock
  refine Tandem.get_bind ?_
  rw [h.options, h.depth]
  split
  · exact Tandem.fail _ _
  · refine tandem_beginBlock h hst hlt hplace key
      (fun hparted _ hlocals => (hbody hparted).locals hlocals)
      fun m₁ slot nested s₁ t₁ hlater₁ h₁ hlt₁ hslot₁ hnested => ?_
    refine Tandem.bind (tandem_compileBody hr h₁ (hst.later hlater₁ h) hnested ident hbody)
      fun m₂ r s₂ t₂ hlater₂ h₂ hsynonym => ?_
    have hplace₂ := ((hlater₁.trans hlater₂).scopes home hlt).trans hplace
    have hslot₂ := (hlater₂.types slot hlt₁).trans hslot₁
    have hfits : marked = true → m₂.Fits ⟨ident, r.2, r.1, nested⟩ := fun hmarked =>
      ⟨fun c hc => hlater₂.markedScope h₁ (hnested hmarked c hc), hsynonym hmarked⟩
    refine Tandem.bind (tandem_endBlock h₂ hplace₂ hslot₂ hfits key)
      fun m₃ _ s₃ t₃ hlater₃ h₃ _ => ?_
    exact Tandem.pure h₃ fun hmarked => hlater₃.markedType h₂ (hslot₂.2 hmarked)

end Wireform.Session
