import Wireform.Proofs.Layout.Synonyms
import Wireform.Proofs.Session.Blocks

/-!
# Layouts are built soundly

Whatever resolves the references inside a block, if it is sound then so is compiling
the block, and the layout that results is as `Arena.Builds` asks. Types that are still
being compiled have no bound, so nothing has to be known of them.

* `sound_compileStruct`, `sound_compileArray`, `sound_compileEnum`, `sound_compileBuiltin`.
* `sound_compileBody`: the body of any block.
-/

namespace Wireform.Session

/-- Whatever it resolves, it leads to a slot. -/
def Resolver.Sound (resolve : Resolver) : Prop :=
  ∀ (s : Session) (scope : ScopeId) (r : TypeRef) (bindings : Bindings), s.Valid →
    scope.index < s.scopes.size → s.Sound (resolve scope r bindings)
    fun id t => id.index < t.arena.size

variable {s t : Session} {resolve : Resolver} {scope : ScopeId}

theorem Advances.scope_lt (h : Advances s t) (hscope : scope.index < s.scopes.size) :
    scope.index < t.scopes.size := Nat.lt_of_lt_of_le hscope h.scopes_size_le

theorem Advances.id_lt {id : TypeId} (h : Advances s t) (hid : id.index < s.arena.size) :
    id.index < t.arena.size := Nat.lt_of_lt_of_le hid h.size_le

theorem sound_orFail {α : Type} {x : Except CompileError α} (hs : s.Valid)
    (hx : ∀ error, x = .error error → ∀ text, error ≠ .violation (.emptySlot text)) :
    s.Sound (orFail x) fun a _ => x = .ok a := Sound.orFail hs hx fun _ h => h

/-! ### Expressions -/

/-- Whatever it resolves, a property of the session is kept. -/
def Resolver.Keeps (inv : Session → Prop) (resolve : Resolver) : Prop :=
  ∀ (s : Session) (scope : ScopeId) (r : TypeRef) (bindings : Bindings), s.Valid →
    scope.index < s.scopes.size → inv s → s.Sound (resolve scope r bindings) fun _ t => inv t

theorem Resolver.Sound.keeps (hr : resolve.Sound) : resolve.Keeps fun _ => True :=
  fun s scope r bindings hs hscope _ =>
    (hr s scope r bindings hs hscope).mono fun _ _ _ _ => trivial

theorem sound_number (hs : s.Valid) (name : String) (operand : Operand) :
    s.Sound (Expression.number name operand) fun _ t => t = s := by
  unfold Expression.number
  split
  · exact Sound.pure hs rfl
  · exact Sound.fail (by simp)

section Expressions

variable {inv : Session → Prop}

theorem keeps_maxSize (hs : s.Valid) (h : inv s) (id : TypeId) :
    s.Sound (maxSize id) fun _ t => inv t :=
  Sound.get_bind (Sound.pure hs h)

variable {sizeOf : TypeRef → Compile Size}
  (hsize : ∀ (s : Session) (r : TypeRef), s.Valid → scope.index < s.scopes.size → inv s →
    s.Sound (sizeOf r) fun _ t => inv t)

include hsize

theorem keeps_sizeOfOperand (hs : s.Valid) (hscope : scope.index < s.scopes.size)
    (h : inv s) (name : String) (operand : Operand) :
    s.Sound (Expression.sizeOfOperand sizeOf name operand) fun _ t => inv t := by
  cases operand with
  | constant value => exact Sound.fail (by simp)
  | type reference =>
    refine Sound.bind (hsize s reference hs hscope h) fun size t hst ht => ?_
    cases size with
    | bounded bytes => exact Sound.pure hst.valid ht
    | unbounded => exact Sound.fail (by simp)

theorem keeps_applyOperator (hs : s.Valid) (hscope : scope.index < s.scopes.size)
    (h : inv s) (name : String) (operator : Operator) (stack : List Operand) :
    s.Sound (Expression.applyOperator sizeOf name operator stack) fun _ t => inv t := by
  unfold Expression.applyOperator
  split
  · refine Sound.bind (sound_number hs name _) ?_
    rintro _ _ - rfl
    refine Sound.bind (sound_number hs name _) ?_
    rintro _ _ - rfl
    exact Sound.pure hs h
  · refine Sound.bind (sound_number hs name _) ?_
    rintro _ _ - rfl
    exact Sound.pure hs h
  · refine Sound.bind (keeps_sizeOfOperand hsize hs hscope h name _) fun _ t hst ht => ?_
    exact Sound.pure hst.valid ht
  · exact Sound.fail (by simp)

theorem keeps_step (hs : s.Valid) (hscope : scope.index < s.scopes.size) (h : inv s)
    (bindings : Bindings) (stack : List Operand) (token : Token) :
    s.Sound (Expression.step sizeOf bindings stack token) fun _ t => inv t := by
  cases token with
  | number | string | type => exact Sound.pure hs h
  | parameter name =>
    simp only [Expression.step]
    split
    · exact Sound.pure hs h
    · exact Sound.fail (by simp)
  | operator name =>
    simp only [Expression.step]
    split
    · exact keeps_applyOperator hsize hs hscope h name _ stack
    · exact Sound.fail (by simp)

theorem keeps_run (hs : s.Valid) (hscope : scope.index < s.scopes.size) (h : inv s)
    (bindings : Bindings) (stack : List Operand) (expr : Expr) :
    s.Sound (Expression.run sizeOf bindings stack expr) fun _ t => inv t := by
  induction expr generalizing s stack with
  | nil => exact Sound.pure hs h
  | cons token rest ih =>
    refine Sound.bind (keeps_step hsize hs hscope h bindings stack token) fun _ t hst ht => ?_
    exact ih hst.valid (hst.scope_lt hscope) ht _

omit hsize in
theorem keeps_evaluate (hr : resolve.Keeps inv) (hs : s.Valid)
    (hscope : scope.index < s.scopes.size) (h : inv s) (bindings : Bindings) (expr : Expr) :
    s.Sound (evaluate resolve scope bindings expr) fun _ t => inv t := by
  have hsize : ∀ (s : Session) (r : TypeRef), s.Valid → scope.index < s.scopes.size → inv s →
      s.Sound (do maxSize (← resolve scope r [])) fun _ t => inv t := by
    intro s r hs hscope h
    refine Sound.bind (hr s scope r [] hs hscope h) fun id t hst ht => ?_
    exact keeps_maxSize hst.valid ht id
  refine Sound.bind (keeps_run hsize hs hscope h bindings [] expr) fun stack t hst ht => ?_
  split
  · exact Sound.pure hst.valid ht
  · exact Sound.fail (by simp)

omit hsize in
theorem keeps_evaluateArguments (hr : resolve.Keeps inv) (hs : s.Valid)
    (hscope : scope.index < s.scopes.size) (h : inv s) (bindings : Bindings)
    (arguments : Option (List Expr)) :
    s.Sound (evaluateArguments resolve scope bindings arguments) fun _ t => inv t := by
  cases arguments with
  | none => exact Sound.pure hs h
  | some arguments =>
    refine Sound.bind (p := fun _ t => inv t) ?_ fun _ t hst ht => Sound.pure hst.valid ht
    induction arguments generalizing s with
    | nil => exact Sound.pure hs h
    | cons expr rest ih =>
      rw [List.mapM_cons]
      refine Sound.bind (keeps_evaluate hr hs hscope h bindings expr) fun _ t hst ht => ?_
      refine Sound.bind (ih hst.valid (hst.scope_lt hscope) ht) fun _ u htu hu => ?_
      exact Sound.pure htu.valid hu

end Expressions

theorem sound_evaluate (hr : resolve.Sound) (hs : s.Valid) (hscope : scope.index < s.scopes.size)
    (bindings : Bindings) (expr : Expr) :
    s.Sound (evaluate resolve scope bindings expr) fun _ _ => True :=
  keeps_evaluate hr.keeps hs hscope trivial bindings expr

theorem sound_evaluateArguments (hr : resolve.Sound) (hs : s.Valid)
    (hscope : scope.index < s.scopes.size) (bindings : Bindings) (arguments : Option (List Expr)) :
    s.Sound (evaluateArguments resolve scope bindings arguments) fun _ _ => True :=
  keeps_evaluateArguments hr.keeps hs hscope trivial bindings arguments

/-! ### Structs -/

/-- A struct as far as it has been compiled: its fields are numbered and bounded so far. -/
structure PartialStruct.Built (p : PartialStruct) (s : Session) (shape : StructShape) : Prop where
  references : ∀ field ∈ p.fields, ∀ id, field.reference? = some id → id.index < s.arena.size
  bound : (p.fields.map (FieldLayout.bound s.arena.greatest)).sum ≤ p.maxSize.value
  placed : ∀ field ∈ p.fields, field.Placed shape
  bits : (p.fields.filterMap FieldLayout.bit?).reverse = List.range p.flags
  positions : (p.fields.filterMap (·.place.position?)).reverse = List.range p.position

namespace PartialStruct.Built

variable {shape : StructShape} {p : PartialStruct}

theorem mono (h : p.Built s shape) (hst : Advances s t) : p.Built t shape where
  references := fun field hf id hid => hst.id_lt (h.references field hf id hid)
  bound := (sum_bound_mono hst.toGrows.extends.greatest_le p.fields).trans h.bound
  placed := h.placed
  bits := h.bits
  positions := h.positions

/-- One more field, if its bit and its position are the next ones. -/
theorem cons (h : p.Built s shape) {field : FieldLayout} {size : Size} {flags position : ℕ}
    (hreference : ∀ id, field.reference? = some id → id.index < s.arena.size)
    (hbound : field.bound s.arena.greatest + p.maxSize.value ≤ size.value)
    (hplaced : field.Placed shape)
    (hbit : List.range p.flags ++ field.bit?.toList = List.range flags)
    (hposition : List.range p.position ++ field.place.position?.toList = List.range position) :
    PartialStruct.Built ⟨field :: p.fields, size, flags, position⟩ s shape where
  references := by
    intro other ho
    rcases List.mem_cons.1 ho with rfl | ho
    · exact hreference
    · exact h.references other ho
  bound := by
    rw [List.map_cons, List.sum_cons]
    exact (add_le_add_right h.bound _).trans hbound
  placed := by
    intro other ho
    rcases List.mem_cons.1 ho with rfl | ho
    · exact hplaced
    · exact h.placed other ho
  bits := by
    -- the newest field stands in front, and its bit comes last
    rw [← hbit, ← h.bits]
    cases hb : field.bit? <;> simp [hb]
  positions := by
    rw [← hposition, ← h.positions]
    cases hb : field.place.position? <;> simp [hb]

end PartialStruct.Built

/-- The next place of a shape has the next position, if it has one. -/
theorem fieldPlace_spec {shape : StructShape} {key : Option String} {position next : ℕ}
    {place : FieldPlace} (h : fieldPlace shape key position = .ok (place, next)) :
    shape.Allows place ∧ List.range position ++ place.position?.toList = List.range next := by
  unfold fieldPlace at h
  split at h
  · cases h
    exact ⟨⟨_, rfl⟩, List.range_succ.symm⟩
  · cases h
    refine ⟨?_, by simp [FieldPlace.position?]⟩
    cases shape with
    | tuple => simp_all
    | object | empty => exact ⟨_, rfl⟩
  · cases h

theorem fieldPlace_ordinary {shape : StructShape} {key : Option String} {position : ℕ}
    (error : CompileError) (h : fieldPlace shape key position = .error error) (text : String) :
    error ≠ .violation (.emptySlot text) := by
  unfold fieldPlace at h
  split at h
  · cases h
  · cases h
  · cases h
    simp

theorem sound_compileField (hr : resolve.Sound) (hs : s.Valid)
    (hscope : scope.index < s.scopes.size) (bindings : Bindings) {shape : StructShape}
    {p : PartialStruct} (hp : p.Built s shape) (field : Field) :
    s.Sound (compileField resolve scope bindings shape p field) fun p t => p.Built t shape := by
  cases field with
  | constant type value =>
    refine Sound.bind (hr s scope type bindings hs hscope) fun id t hst hid => ?_
    refine Sound.bind (sound_maxSize hst.valid id) fun size u htu hsize => ?_
    refine Sound.get_bind (Sound.pure htu.valid ?_)
    have hu := hp.mono (hst.trans htu)
    refine hu.cons ?_ ?_ rfl (List.append_nil _) (List.append_nil _)
    · intro other ho
      obtain rfl := Option.some.inj ho
      exact htu.id_lt hid
    · rw [add_comm, hsize]
      exact Size.value_add _ _
  | literal key value =>
    refine Sound.bind (sound_orFail hs fieldPlace_ordinary) fun r t hst hplace => ?_
    obtain ⟨hallows, hposition⟩ := fieldPlace_spec hplace
    refine Sound.pure hst.valid ?_
    refine (hp.mono hst).cons (fun _ h => nomatch h) ?_ hallows (List.append_nil _) hposition
    exact (zero_add _).le
  | typed key type =>
    refine Sound.bind (sound_orFail hs fieldPlace_ordinary) fun r t hst hplace => ?_
    obtain ⟨hallows, hposition⟩ := fieldPlace_spec hplace
    refine Sound.bind (hr t scope type bindings hst.valid (hst.scope_lt hscope))
      fun id u htu hid => ?_
    refine Sound.bind (sound_maxSize htu.valid id) fun size v huv hsize => ?_
    refine Sound.pure huv.valid ?_
    refine (hp.mono ((hst.trans htu).trans huv)).cons ?_ ?_ hallows ?_ hposition
    · intro other ho
      obtain rfl := Option.some.inj ho
      exact huv.id_lt hid
    · rw [add_comm, hsize]
      exact Size.value_add _ _
    -- only a field that may be `null` takes a bit
    · cases (type.substitute bindings).nullable
      · exact List.append_nil _
      · exact List.range_succ.symm

theorem sound_compileFields (hr : resolve.Sound) (hs : s.Valid)
    (hscope : scope.index < s.scopes.size) (bindings : Bindings) {shape : StructShape}
    {p : PartialStruct} (hp : p.Built s shape) (fields : List Field) :
    s.Sound (compileFields resolve scope bindings shape p fields) fun p t => p.Built t shape := by
  induction fields generalizing s p with
  | nil => exact Sound.pure hs hp
  | cons field rest ih =>
    refine Sound.bind (sound_compileField hr hs hscope bindings hp field) fun p t hst hp => ?_
    exact ih hst.valid (hst.scope_lt hscope) hp

/-- The layout of a struct whose fields are all compiled. -/
theorem PartialStruct.Built.builds {shape : StructShape} {p : PartialStruct} (h : p.Built s shape)
    (hshape : shape ≠ .empty) :
    s.arena.Builds (.struct ⟨shape, bitmapLength p.flags, p.fields.reverse⟩)
      (p.maxSize + .bounded (bitmapLength p.flags)) where
  references := by
    intro id hid
    obtain ⟨field, hf, hid⟩ := List.mem_filterMap.1 hid
    exact h.references field (List.mem_reverse.1 hf) id hid
  bound := by
    refine le_trans ?_ (Size.value_add _ _)
    change (p.fields.reverse.map _).sum + _ ≤ _
    rw [List.map_reverse, List.sum_reverse]
    exact add_le_add h.bound le_rfl
  numbered := by
    rintro _ ⟨⟩
    refine ⟨fun field hf => h.placed field (List.mem_reverse.1 hf), ⟨p.flags, ?_, rfl⟩,
      ⟨p.position, ?_⟩, fun he => absurd he hshape⟩
    · rw [List.filterMap_reverse]
      exact h.bits
    · rw [List.filterMap_reverse]
      exact h.positions
  numeric := fun _ _ ha => nomatch ha

theorem sound_compileStruct (hr : resolve.Sound) (hs : s.Valid)
    (hscope : scope.index < s.scopes.size) (body : StructBody) (bindings : Bindings) :
    s.Sound (compileStruct resolve scope body bindings) fun r t => t.arena.Builds r.1 r.2 := by
  unfold compileStruct
  split
  · refine Sound.pure hs ⟨by simp [Layout.references], ?_, ?_, by simp⟩
    · simp [Layout.bound]
    · rintro _ ⟨⟩
      exact ⟨by simp, ⟨0, rfl, rfl⟩, ⟨0, rfl⟩, fun _ => ⟨rfl, rfl⟩⟩
  · next hshape =>
    refine Sound.bind (sound_compileFields hr hs hscope bindings ?_ body.fields)
      fun p t hst hp => ?_
    · exact ⟨by simp, by simp, by simp, rfl, rfl⟩
    · exact Sound.pure hst.valid (hp.builds hshape)

/-! ### Arrays -/

theorem toSize_ordinary {operand : Operand} {subject : String} (error : CompileError)
    (h : operand.toSize subject = .error error) (text : String) :
    error ≠ .violation (.emptySlot text) := by
  unfold Operand.toSize at h
  split at h
  · split at h
    · cases h
    · cases h
      simp
  · cases h
    simp

/-- The number type behind an element type, if it has a fixed width. -/
theorem carries_of_numeric {arena : Arena} {id : TypeId} {p : Primitive}
    (h : (match (arena.peel? id).map CompiledType.layout with
      | some (.primitive p) => if p.isNumeric then some p else none
      | _ => none) = some p) : arena.Carries id p := by
  cases hp : arena.peel? id with
  | none => simp [hp] at h
  | some type =>
    cases hl : type.layout with
    | primitive q =>
      simp only [hp, Option.map_some, hl] at h
      split at h
      · obtain rfl := Option.some.inj h
        exact Arena.carries_of_peelWithin? hl _ _ hp
      · cases h
    | _ => simp [hp, hl] at h

/-- The type of an array of fixed length. -/
def arrayType (arena : Arena) (element : TypeId) (size : ℕ) (nullable : Bool) : CompiledType :=
  let numeric := match (arena.peel? element).map CompiledType.layout with
    | some (.primitive p) => if p.isNumeric then some p else none
    | _ => none
  let elements := (arena.maxSize element).times size
  let bound := if nullable then elements + .bounded (bitmapLength size) else elements
  let name := match arena.get? element with
    | some type => type.ident
    | none => "…"
  let mark := if nullable then "?" else ""
  ⟨"[" ++ mark ++ name ++ "; " ++ toString size ++ "]", bound,
    .array ⟨element, size, nullable, numeric⟩, none⟩

theorem compileArray_eq (resolve : Resolver) (scope : ScopeId) (element : TypeRef) (size : Expr)
    (bindings : Bindings) : compileArray resolve scope element size bindings = (do
      let operand ← evaluate resolve scope bindings size
      let size ← orFail (operand.toSize "array size")
      let id ← resolve scope (element.substitute bindings) bindings
      push (arrayType (← get).arena id size (element.substitute bindings).nullable)) := rfl

theorem holds_arrayType {id : TypeId} (hid : id.index < s.arena.size) (size : ℕ) (nullable : Bool) :
    s.Holds (arrayType s.arena id size nullable) := by
  refine ⟨⟨?_, ?_, by simp [arrayType], ?_⟩, by simp [arrayType]⟩
  · exact List.forall_mem_singleton.2 hid
  · have helements := Size.value_times (s.arena.maxSize id) size
    simp only [arrayType, Layout.bound]
    split
    · exact (add_le_add_left helements _).trans (Size.value_add _ _)
    · rwa [Nat.cast_zero, add_zero]
  · rintro _ p ⟨⟩ hp
    exact carries_of_numeric hp

theorem sound_compileArray (hr : resolve.Sound) (hs : s.Valid)
    (hscope : scope.index < s.scopes.size) (element : TypeRef) (size : Expr) (bindings : Bindings) :
    s.Sound (compileArray resolve scope element size bindings) fun id t =>
      id.index < t.arena.size := by
  rw [compileArray_eq]
  refine Sound.bind (sound_evaluate hr hs hscope bindings size) fun operand t hst _ => ?_
  refine Sound.bind (sound_orFail hst.valid toSize_ordinary) fun size u htu _ => ?_
  have hsu := hst.trans htu
  refine Sound.bind (hr u scope _ bindings hsu.valid (hsu.scope_lt hscope)) fun id v huv hid => ?_
  refine Sound.get_bind ?_
  exact (sound_push huv.valid (holds_arrayType hid size _)).mono
    fun found t _ hf => t.arena.lt_size_of_get? hf

/-! ### Enums -/

/-- What is behind a slot is behind it later, and what is not there yet may come. -/
theorem structBehind?_of_extends {a b : Arena} (h : Arena.Extends a b) {id : TypeId}
    {body : StructLayout} (hbehind : structBehind? a id = some body) :
    structBehind? b id = some body := by
  unfold structBehind? at hbehind ⊢
  cases hpeel : a.peel? id with
  | none =>
    rw [hpeel] at hbehind
    cases hbehind
  | some type =>
    rw [hpeel] at hbehind
    rw [h.peel?_of_some hpeel]
    exact hbehind

theorem sound_sharedEmptyTuple (hs : s.Valid) :
    s.Sound sharedEmptyTuple fun id t => id.index < t.arena.size := by
  unfold sharedEmptyTuple
  refine Sound.get_bind ?_
  split
  · next id hid =>
    obtain ⟨type, ht, -⟩ := hs.emptyTuple id hid
    exact Sound.pure hs (s.arena.lt_size_of_get? ht)
  · next hnone =>
    -- the empty tuple is made once, and every variant without fields shares it
    have hholds : s.Holds ⟨"()", .zero, .struct ⟨.tuple, 0, []⟩, none⟩ := by
      refine ⟨⟨by simp [Layout.references], by simp [Layout.bound], ?_, by simp⟩, by simp⟩
      rintro _ ⟨⟩
      exact ⟨by simp, ⟨0, rfl, rfl⟩, ⟨0, rfl⟩, by simp⟩
    have hpush := advances_push hs hholds
    have hget : (s.arena.push ⟨"()", .zero, .struct ⟨.tuple, 0, []⟩, none⟩).2.get? ⟨s.arena.size⟩ =
        some ⟨"()", .zero, .struct ⟨.tuple, 0, []⟩, none⟩ := by
      rw [Arena.get?_push, if_pos rfl]
    refine ⟨⟨⟨rfl, hpush.slots, hpush.scopes, ?_⟩, rfl, hpush.filled, hpush.unlocked, ?_⟩, ?_⟩
    · exact Or.inr ⟨hnone, _, rfl, Nat.le_refl _⟩
    · refine hpush.valid.step (Arena.Extends.refl _) (Nat.le_refl _) (fun _ _ h => Or.inl h)
        (fun _ _ h => Or.inl h) fun id hid => Or.inr ?_
      obtain rfl := Option.some.inj hid
      exact ⟨_, hget, rfl⟩
    · exact Arena.lt_size_of_get? _ hget

theorem sound_variantLayout (hs : s.Valid) (shape : EnumShape) (target : String) (entry : EnumEntry)
    {payload : TypeId} (hpayload : payload.index < s.arena.size) :
    s.Sound (variantLayout shape target entry payload) fun variant t =>
      variant.payload.index < t.arena.size := by
  unfold variantLayout
  refine Sound.get_bind ?_
  cases shape with
  | tuple =>
    dsimp only
    split
    · exact Sound.bind (sound_sharedEmptyTuple hs) fun id t hst hid => Sound.pure hst.valid hid
    · exact Sound.pure hs hpayload
  | object => exact Sound.pure hs hpayload

theorem sound_compileVariants (hr : resolve.Sound) (hs : s.Valid)
    (hscope : scope.index < s.scopes.size) (bindings : Bindings) (shape : EnumShape)
    (target : String) (greatest : Size) (entries : List EnumEntry) :
    s.Sound (compileVariants resolve scope bindings shape target greatest entries) fun r t =>
      (∀ variant ∈ r.1, variant.payload.index < t.arena.size) ∧
        greatest.value ⊔ payloadBound t.arena.greatest r.1 ≤ r.2.value := by
  induction entries generalizing s greatest with
  | nil => exact Sound.pure hs ⟨by simp, by simp [payloadBound]⟩
  | cons entry rest ih =>
    unfold compileVariants
    refine Sound.bind (hr s scope _ bindings hs hscope) fun payload t hst hpayload => ?_
    refine Sound.bind (sound_variantLayout hst.valid shape target entry hpayload)
      fun variant u htu hvariant => ?_
    refine Sound.bind (sound_maxSize htu.valid variant.payload) fun size v huv hsize => ?_
    have hsv := (hst.trans htu).trans huv
    refine Sound.bind (ih hsv.valid (hsv.scope_lt hscope) (greatest.max size))
      fun r w hvw hrest => ?_
    refine Sound.pure hvw.valid ⟨?_, ?_⟩
    · intro other ho
      rcases List.mem_cons.1 ho with rfl | ho
      · exact (huv.trans hvw).id_lt hvariant
      · exact hrest.1 other ho
    -- slots that were filled since have only lowered the bound of the payload
    · have hanti := hvw.toGrows.extends.greatest_le variant.payload
      have hvalue : v.arena.greatest variant.payload = size.value := congrArg Size.value hsize.symm
      rw [hvalue] at hanti
      have hle := hrest.2
      rw [Size.value_max] at hle
      simp only [payloadBound]
      refine le_trans ?_ hle
      rw [← sup_assoc]
      exact sup_le_sup (sup_le_sup le_rfl hanti) le_rfl

theorem sound_compileEnum (hr : resolve.Sound) (hs : s.Valid) (hscope : scope.index < s.scopes.size)
    (body : EnumBody) (bindings : Bindings) :
    s.Sound (compileEnum resolve scope body bindings) fun r t => t.arena.Builds r.1 r.2 := by
  unfold compileEnum
  refine Sound.get_bind ?_
  refine Sound.bind (hr s scope _ bindings hs hscope) fun tag t hst htag => ?_
  refine Sound.bind (sound_compileVariants hr hst.valid (hst.scope_lt hscope) bindings _ _ _ _)
    fun r u htu hvariants => ?_
  refine Sound.bind (sound_maxSize htu.valid tag) fun size v huv hsize => ?_
  refine Sound.pure huv.valid ⟨?_, ?_, by simp, by simp⟩
  · intro id hid
    rcases List.mem_cons.1 hid with rfl | hid
    · exact (htu.trans huv).id_lt htag
    · obtain ⟨variant, hv, rfl⟩ := List.mem_map.1 hid
      exact huv.id_lt (hvariants.1 variant hv)
  · refine le_trans (add_le_add (hsize ▸ le_rfl) ?_) (Size.value_add _ _)
    exact (payloadBound_mono huv.toGrows.extends.greatest_le _).trans
      (le_sup_right.trans hvariants.2)

/-! ### Builtin templates and definitions -/

theorem sound_typeArgument (hr : resolve.Sound) (hs : s.Valid)
    (hscope : scope.index < s.scopes.size) (builtin : Builtin) (operand : Operand) :
    s.Sound (typeArgument resolve scope builtin operand) fun id t => id.index < t.arena.size := by
  cases operand with
  | type r => exact hr s scope r [] hs hscope
  | constant value => exact Sound.fail (by simp)

theorem sound_compileBuiltin (hr : resolve.Sound) (hs : s.Valid)
    (hscope : scope.index < s.scopes.size) (builtin : Builtin) (arguments : List Operand) :
    s.Sound (compileBuiltin resolve scope builtin arguments) fun r t => t.arena.Builds r.1 r.2 := by
  unfold compileBuiltin
  split
  · split
    · exact Sound.pure hs ⟨by simp [Layout.references], le_rfl, by simp, by simp⟩
    · exact Sound.fail (by simp)
  · exact Sound.fail (by simp)
  · refine Sound.bind (sound_typeArgument hr hs hscope _ _) fun id t hst hid => ?_
    have hparts : ∀ part ∈ [id], part.index < t.arena.size := List.forall_mem_singleton.2 hid
    exact Sound.pure hst.valid ⟨hparts, le_rfl, by simp, by simp⟩
  · refine Sound.bind (sound_typeArgument hr hs hscope _ _) fun id t hst hid => ?_
    refine Sound.bind (sound_orFail hst.valid toSize_ordinary) fun length u htu _ => ?_
    refine Sound.bind (sound_maxSize htu.valid id) fun size v huv hsize => ?_
    have hparts : ∀ part ∈ [id], part.index < v.arena.size :=
      List.forall_mem_singleton.2 ((htu.trans huv).id_lt hid)
    refine Sound.pure huv.valid ⟨hparts, ?_, by simp, by simp⟩
    refine le_trans (add_le_add le_rfl ?_) (Size.value_add _ _)
    have hvalue : v.arena.greatest id = size.value := congrArg Size.value hsize.symm
    rw [hvalue]
    exact Size.value_times size length
  · refine Sound.bind (sound_typeArgument hr hs hscope _ _) fun id t hst hid => ?_
    refine Sound.bind (sound_orFail hst.valid toSize_ordinary) fun size u htu _ => ?_
    have hparts : ∀ part ∈ [id], part.index < u.arena.size :=
      List.forall_mem_singleton.2 (htu.id_lt hid)
    exact Sound.pure htu.valid ⟨hparts, le_rfl, by simp, by simp⟩
  · refine Sound.bind (sound_orFail hs toSize_ordinary) fun count t hst _ => ?_
    exact Sound.pure hst.valid ⟨by simp [Layout.references], le_rfl, by simp, by simp⟩
  · exact Sound.fail (by simp)

theorem sound_compileDefinition (hr : resolve.Sound) (hs : s.Valid)
    (hscope : scope.index < s.scopes.size) (ident : String) (definition : Definition)
    (bindings : Bindings) :
    s.Sound (compileDefinition resolve scope ident definition bindings) fun r t =>
      t.arena.Builds r.1 r.2 := by
  cases definition with
  | struct body => exact sound_compileStruct hr hs hscope body bindings
  | enum body => exact sound_compileEnum hr hs hscope body bindings
  | synonym target =>
    simp only [compileDefinition]
    split
    · exact Sound.fail (by simp)
    · refine Sound.bind (hr s scope target bindings hs hscope) fun id t hst hid => ?_
      refine Sound.bind (sound_maxSize hst.valid id) fun size u htu hsize => ?_
      have hparts : ∀ part ∈ [id], part.index < u.arena.size :=
        List.forall_mem_singleton.2 (htu.id_lt hid)
      exact Sound.pure htu.valid ⟨hparts, hsize ▸ le_rfl, by simp, by simp⟩
  | template parameters body => exact Sound.fail (by simp)

/-- **The body of a block.** -/
theorem sound_compileBody (hr : resolve.Sound) (hs : s.Valid) {home : ScopeId}
    (hhome : home.index < s.scopes.size) {nested : Option ScopeId}
    (hnested : ∀ id, nested = some id → id.index < s.scopes.size) (ident : String)
    (bindings : Bindings) (body : BlockBody) :
    s.Sound (compileBody resolve home nested ident bindings body) fun r t =>
      t.arena.Builds r.1 r.2 := by
  cases body with
  | definition definition =>
    refine sound_compileDefinition hr hs ?_ ident definition bindings
    cases nested with
    | none => exact hhome
    | some id => exact hnested id rfl
  | builtin builtin arguments => exact sound_compileBuiltin hr hs hhome builtin arguments

end Wireform.Session
