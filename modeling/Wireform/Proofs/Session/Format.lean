import Wireform.Proofs.Codec.Format
import Wireform.Proofs.Session.Closed
import Wireform.Proofs.Session.Resolution

/-!
# The bytes of compiled structs and arrays

The layout of a struct has the fields of its definition, in the same order. Those that may be
`null` under the bindings have the bits 0, 1, 2 and so on, and the bitmap has room for just these.
So the bytes of a value can be read off the definition: the bitmap, then what each field adds.

* `LaidOut`: a field of a definition and its layout.
* `StructLayout.Follows`, `ArrayLayout.Follows`: a layout is as its definition asks for.
* `laidOut_compileStruct`, `laidOut_compileArray`: what the compiler builds is.
* `Valid.bytes_of_compiled`: **the bytes of structs and of arrays** that are compiled.
-/

namespace Wireform.Session

variable {s t u : Session} {resolve : Resolver} {scope : ScopeId} {bindings : Bindings}

/-- A reference has been resolved to a type, not before one moment and not after another. -/
def Leads (resolve : Resolver) (scope : ScopeId) (bindings : Bindings) (s t : Session)
    (type : TypeRef) (id : TypeId) :
    Prop :=
  ∃ before after, Advances s before ∧ resolve scope type bindings before = .ok id after ∧
    Advances after t

/-- Whether a field may be `null`; this may be up to the argument for a parameter. -/
def mayBeNull (bindings : Bindings) : Field → Bool
  | .typed _ type => (type.substitute bindings).nullable
  | _ => false

/-- The place of a field with a key: in a tuple a position, otherwise the key. -/
def PlacedAt (shape : StructShape) (key : Option String) (place : FieldPlace) : Prop :=
  match shape with
  | .tuple => ∃ position, place = .position position
  | _ => ∃ name, key = some name ∧ place = .key name

/-- A field has the layout that its definition asks for. -/
def LaidOut (resolve : Resolver) (scope : ScopeId) (bindings : Bindings)
    (shape : StructShape) (s t : Session) (field : Field) (layout : FieldLayout) : Prop :=
  match field with
  | .constant type value =>
    layout.place = .detached ∧ ∃ id verify, layout.content = .constant id value verify ∧
      Leads resolve scope bindings s t type id
  | .literal key value => PlacedAt shape key layout.place ∧ layout.content = .literal value
  | .typed key type =>
    PlacedAt shape key layout.place ∧ ∃ id presence, layout.content = .value id presence ∧
      presence.isSome = mayBeNull bindings (.typed key type) ∧
      Leads resolve scope bindings s t type id

theorem LaidOut.mono {shape : StructShape} {s' t' : Session} {field : Field} {layout : FieldLayout}
    (h : LaidOut resolve scope bindings shape s t field layout) (hs : Advances s' s)
    (ht : Advances t t') :
    LaidOut resolve scope bindings shape s' t' field layout := by
  cases field with
  | constant type value =>
    obtain ⟨hplace, id, verify, hcontent, before, after, hbefore, hrun, hafter⟩ := h
    exact ⟨hplace, id, verify, hcontent, before, after, hs.trans hbefore, hrun, hafter.trans ht⟩
  | literal key value => exact h
  | typed key type =>
    obtain ⟨hplace, id, presence, hcontent, hnull, before, after, hbefore, hrun, hafter⟩ := h
    exact ⟨hplace, id, presence, hcontent, hnull, before, after, hs.trans hbefore, hrun,
      hafter.trans ht⟩

/-- A layout has the fields of a definition, and bits and positions are counted off. -/
structure StructLayout.Follows (l : StructLayout) (resolve : Resolver) (scope : ScopeId)
    (bindings : Bindings) (s t : Session) (body : StructBody) : Prop where
  shape : l.shape = body.shape
  fields : List.Forall₂ (LaidOut resolve scope bindings body.shape s t) body.fields l.fields
  bits : l.fields.filterMap FieldLayout.bit? = List.range (body.fields.countP (mayBeNull bindings))
  bitmapBytes : l.bitmapBytes = bitmapLength (body.fields.countP (mayBeNull bindings))
  positions : ∃ count, l.fields.filterMap (·.place.position?) = List.range count

/-- A layout has the elements and the size of an array reference. -/
structure ArrayLayout.Follows (a : ArrayLayout) (resolve : Resolver) (scope : ScopeId)
    (bindings : Bindings) (s t : Session) (element : TypeRef) (size : Expr) : Prop where
  size : ∃ operand after, evaluate resolve scope bindings size s = .ok operand after ∧
    operand.toSize "array size" = .ok a.size
  nullable : a.nullable = (element.substitute bindings).nullable
  element : Leads resolve scope bindings s t (element.substitute bindings) a.element

/-! ### Structs -/

theorem placedAt_of_fieldPlace {shape : StructShape} {key : Option String} {position next : ℕ}
    {place : FieldPlace} (h : fieldPlace shape key position = .ok (place, next)) :
    PlacedAt shape key place := by
  unfold fieldPlace at h
  unfold PlacedAt
  cases shape with
  | tuple =>
    obtain ⟨rfl, -⟩ := Prod.mk.inj (Except.ok.inj h)
    exact ⟨position, rfl⟩
  | object | empty =>
    cases key with
    | none => cases h
    | some name =>
      obtain ⟨rfl, -⟩ := Prod.mk.inj (Except.ok.inj h)
      exact ⟨name, rfl, rfl⟩

/-- One more field is laid out as its definition asks for. -/
theorem laidOut_compileField (hr : resolve.Sound) (hs : s.Valid)
    (hscope : scope.index < s.scopes.size) (shape : StructShape) (p : PartialStruct)
    (field : Field) :
    s.Sound (compileField resolve scope bindings shape p field) fun p' t =>
      ∃ layout, p'.fields = layout :: p.fields ∧
        LaidOut resolve scope bindings shape s t field layout := by
  cases field with
  | constant type value =>
    refine Sound.bind (hr s scope type bindings hs hscope).run fun id t hst hid => ?_
    refine Sound.bind (sound_maxSize hst.valid id)
      fun size u htu _ => Sound.get_bind (Sound.pure htu.valid ?_)
    exact ⟨_, rfl, rfl, id, _, rfl, s, t, Advances.refl hs, hid.1, htu⟩
  | literal key value =>
    refine Sound.bind (sound_orFail hs fieldPlace_ordinary)
      fun r t hst hplace => Sound.pure hst.valid ?_
    exact ⟨_, rfl, placedAt_of_fieldPlace hplace, rfl⟩
  | typed key type =>
    refine Sound.bind (sound_orFail hs fieldPlace_ordinary) fun r t hst hplace => ?_
    refine Sound.bind (hr t scope type bindings hst.valid (hst.scope_lt hscope)).run
      fun id u htu hid => ?_
    refine Sound.bind (sound_maxSize htu.valid id) fun size v huv _ => Sound.pure huv.valid ?_
    refine ⟨_, rfl, placedAt_of_fieldPlace hplace, id, _, rfl, ?_, t, u, hst, hid.1, huv⟩
    change (if (type.substitute bindings).nullable = true then some p.flags else none).isSome =
      (type.substitute bindings).nullable
    cases (type.substitute bindings).nullable <;> rfl

theorem laidOut_compileFields (hr : resolve.Sound) (hs : s.Valid)
    (hscope : scope.index < s.scopes.size) (shape : StructShape) (p : PartialStruct)
    (fields : List Field) :
    s.Sound (compileFields resolve scope bindings shape p fields) fun p' t =>
      ∃ layouts, p'.fields = layouts.reverse ++ p.fields ∧
        List.Forall₂ (LaidOut resolve scope bindings shape s t) fields layouts := by
  induction fields generalizing s p with
  | nil => exact Sound.pure hs ⟨[], rfl, .nil⟩
  | cons field rest ih =>
    refine Sound.bind (laidOut_compileField hr hs hscope shape p field) fun p' t hst hfield => ?_
    refine (ih hst.valid (hst.scope_lt hscope) p').mono fun p'' u htu hrest => ?_
    obtain ⟨layout, hp', hlayout⟩ := hfield
    obtain ⟨layouts, hp'', hlayouts⟩ := hrest
    refine ⟨layout :: layouts, ?_, .cons ?_ ?_⟩
    · rw [hp'', hp', List.reverse_cons, List.append_assoc, List.singleton_append]
    · exact hlayout.mono (Advances.refl hs) htu
    · exact hlayouts.imp fun _ _ h => h.mono hst (Advances.refl htu.valid)

/-- As many fields have a bit as may be `null`. -/
theorem length_bits {shape : StructShape} {fields : List Field} {layouts : List FieldLayout}
    (h : List.Forall₂ (LaidOut resolve scope bindings shape s t) fields layouts) :
    (layouts.filterMap FieldLayout.bit?).length = fields.countP (mayBeNull bindings) := by
  induction h with
  | nil => rfl
  | @cons field layout rest layouts hfield _ ih =>
    have hbit : layout.bit?.isSome = mayBeNull bindings field := by
      unfold FieldLayout.bit?
      cases field with
      | constant type value =>
        obtain ⟨-, id, verify, hcontent, -⟩ := hfield
        rw [hcontent]
        rfl
      | literal key value =>
        rw [hfield.2]
        rfl
      | typed key type =>
        obtain ⟨-, id, presence, hcontent, hnull, -⟩ := hfield
        rw [hcontent]
        exact hnull
    rw [List.countP_cons, ← ih, ← hbit]
    cases hfound : layout.bit? with
    | none =>
      rw [List.filterMap_cons_none hfound]
      rfl
    | some bit =>
      rw [List.filterMap_cons_some hfound]
      rfl

/-- **A struct is laid out as its definition asks for.** -/
theorem laidOut_compileStruct (hr : resolve.Sound) (hs : s.Valid)
    (hscope : scope.index < s.scopes.size) {body : StructBody} (hshape : body.shape ≠ .empty) :
    s.Sound (compileStruct resolve scope body bindings) fun r t =>
      ∃ l, r.1 = .struct l ∧ StructLayout.Follows l resolve scope bindings s t body := by
  have hlaid : s.Sound (compileStruct resolve scope body bindings) fun r t => ∃ l, r.1 = .struct l ∧
      l.shape = body.shape ∧ List.Forall₂ (LaidOut resolve scope bindings body.shape s t)
      body.fields l.fields := by
    unfold compileStruct
    split
    · next hempty => exact absurd hempty hshape
    · refine Sound.bind (laidOut_compileFields hr hs hscope body.shape _ body.fields)
        fun p t hst hp => ?_
      obtain ⟨layouts, hfields, hlayouts⟩ := hp
      refine Sound.pure hst.valid ⟨_, rfl, rfl, ?_⟩
      rwa [hfields, List.append_nil, List.reverse_reverse]
  -- the numbers are those that any struct has, their count that of the fields that have one
  refine ((sound_compileStruct hr hs hscope body bindings).and hlaid).mono fun r t _ h => ?_
  obtain ⟨hbuilds, l, hl, hsame, hfields⟩ := h
  obtain ⟨-, ⟨flags, hbits, hbytes⟩, hpositions, -⟩ := hbuilds.numbered l hl
  have hflags : flags = body.fields.countP (mayBeNull bindings) := by
    rw [← length_bits hfields, hbits, List.length_range]
  subst hflags
  exact ⟨l, hl, hsame, hfields, hbits, hbytes, hpositions⟩

/-! ### Arrays -/

/-- **An array is laid out as its reference asks for.** -/
theorem laidOut_compileArray (hr : resolve.Sound) (hs : s.Valid)
    (hscope : scope.index < s.scopes.size) (element : TypeRef) (size : Expr) :
    s.Sound (compileArray resolve scope element size bindings) fun id t => ∃ type a,
      t.arena.get? id = some type ∧ type.layout = .array a ∧
      ArrayLayout.Follows a resolve scope bindings s t element size := by
  rw [compileArray_eq]
  refine Sound.bind (sound_evaluate hr hs hscope bindings size).run fun operand t hst hoperand => ?_
  refine Sound.bind (sound_orFail hst.valid toSize_ordinary) fun count u htu hcount => ?_
  have hsu := hst.trans htu
  refine Sound.bind (hr u scope _ bindings hsu.valid (hsu.scope_lt hscope)).run
    fun id v huv hid => ?_
  refine Sound.get_bind
    ((sound_push huv.valid (holds_arrayType hid.2 count _)).mono fun slot w hvw hslot => ?_)
  exact ⟨_, _, hslot, rfl, ⟨operand, t, hoperand.1, hcount⟩, rfl, u, v, hsu, hid.1, hvw⟩

/-! ### Bytes -/

/-- **The bytes of compiled structs and arrays.** -/
theorem Valid.bytes_of_compiled (hs : s.Valid) (hscope : scope.index < s.scopes.size) (levels : ℕ)
    (bindings : Bindings) :
    (∀ (body : StructBody) (layout : Layout) (size : Size) (t : Session), body.shape ≠ .empty →
      compileStruct (resolveType levels) scope body bindings s = .ok (layout, size) t →
      ∃ l, layout = .struct l ∧
        StructLayout.Follows l (resolveType levels) scope bindings s t body ∧
        ∀ (arena : Arena) (id : TypeId) (type : CompiledType) (value : Json)
          (buffer after : Array UInt8),
          arena.get? id = some type → type.layout = .struct l →
          arena.encode id value buffer = .ok () after →
          ∃ bitmap parts, after = buffer ++ (bitmap ++ parts.flatten).toArray ∧
            Codec.StructFormat arena.encode l.fields (body.fields.countP (mayBeNull bindings))
              value bitmap parts) ∧
    (∀ (element : TypeRef) (size : Expr) (id : TypeId) (t : Session),
      compileArray (resolveType levels) scope element size bindings s = .ok id t →
      ∃ type a, t.arena.get? id = some type ∧ type.layout = .array a ∧
        ArrayLayout.Follows a (resolveType levels) scope bindings s t element size ∧
        ∀ (arena : Arena) (value : Json) (buffer after : Array UInt8), Arena.Extends t.arena arena →
          arena.encode id value buffer = .ok () after →
          ∃ items bitmap parts, value = .array items ∧ items.length = a.size ∧
            after = buffer ++ (bitmap ++ parts.flatten).toArray ∧
            Codec.ArrayFormat arena.encode a items bitmap parts) := by
  refine ⟨fun body layout size t hshape hrun => ?_, fun element size id t hrun => ?_⟩
  · obtain ⟨-, l, hl, hfollows⟩ :=
      (laidOut_compileStruct (sound_resolveType levels) hs hscope hshape).of_ok hrun
    refine ⟨l, hl, hfollows, fun arena id type value buffer after hid htype hencode => ?_⟩
    have hne : l.shape ≠ .empty := hfollows.shape ▸ hshape
    exact Arena.structFormat_of_encode hid htype hne hfollows.bits hfollows.bitmapBytes hencode
  · obtain ⟨hst, type, a, hid, hl, hfollows⟩ :=
      (laidOut_compileArray (sound_resolveType levels) hs hscope element size).of_ok hrun
    refine ⟨type, a, hid, hl, hfollows, fun arena value buffer after hextends hencode => ?_⟩
    have hnumeric : ∀ p, a.numeric = some p → arena.Carries a.element p := fun p hp =>
      ((hst.valid.types id type hid).builds.numeric a p hl hp).mono hextends
    exact Arena.arrayFormat_of_encode (hextends.get? _ _ hid) hl hnumeric hencode

/-- A constant, a literal, and fields with and without a bit. -/
def ticket : StructBody :=
  .object [.constant (.named "u8") (.ofUInt64 7), .typed (some "row") (TypeRef.named "u8").orNull,
    .literal (some "kind") (.string "seat"), .typed (some "price") (.named "u16"),
    .typed (some "seat") (TypeRef.named "u8").orNull]

/-- A value without a row. -/
def sold : Json := .object [("price", .ofUInt64 258), ("row", .null), ("seat", .ofUInt64 5)]

theorem bytes_of_ticket : ∃ l size t after bitmap parts,
    compileStruct (resolveType 2) root ticket [] (initial {}) = .ok (.struct l, size) t ∧
    (t.arena.push ⟨"Ticket", size, .struct l, none⟩).2.encode ⟨t.arena.size⟩ sold #[] =
      .ok () after ∧
    after.toList = [2, 7, 1, 2, 5] ∧ after = #[] ++ (bitmap ++ parts.flatten).toArray ∧
    Codec.StructFormat (t.arena.push ⟨"Ticket", size, .struct l, none⟩).2.encode l.fields 2 sold
      bitmap parts := by
  have hbytes :
      ((ending (compileStruct (resolveType 2) root ticket []) (initial {})).toOption.bind fun r =>
      match (r.2.arena.push ⟨"Ticket", r.1.2, r.1.1, none⟩).2.encode ⟨r.2.arena.size⟩ sold #[] with
      | .ok _ after => some after.toList
      | .error _ _ => none) = some [2, 7, 1, 2, 5] := by decide +kernel
  obtain ⟨⟨⟨layout, size⟩, t⟩, hending, hbytes⟩ := Option.bind_eq_some_iff.1 hbytes
  have hrun := ok_of_ending (ok_of_toOption hending)
  have hvalid : (initial {}).Valid := (closed_initial {}).toValid
  obtain ⟨l, rfl, -, hformat⟩ :=
    (Valid.bytes_of_compiled hvalid (by decide) 2 []).1 ticket layout size t (by decide) hrun
  split at hbytes
  · next after hencode =>
    have hid : (t.arena.push ⟨"Ticket", size, .struct l, none⟩).2.get? ⟨t.arena.size⟩ =
        some ⟨"Ticket", size, .struct l, none⟩ := by
      rw [Arena.get?_push, if_pos rfl]
    obtain ⟨bitmap, parts, hafter, hparts⟩ := hformat _ _ _ _ _ _ hid rfl hencode
    exact ⟨l, size, t, after, bitmap, parts, hrun, hencode, Option.some.inj hbytes, hafter, hparts⟩
  · cases hbytes

end Wireform.Session
