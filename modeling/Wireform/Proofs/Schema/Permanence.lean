import Wireform.Proofs.Codec.DecodeLevels
import Wireform.Proofs.Identifier.Stability
import Wireform.Proofs.Schema.Reached
import Wireform.Proofs.Session.Recurrence

/-!
# What is resolved stays resolved

Whatever is resolved later, with or without success, a slot that has been handed out keeps its
type, and its codec gives the same results: all that the type refers to was there with it, so
the arena agrees with every later one on all that the codec looks at. A name or a path that is
resolved again leads to the slot that it led to, if it is stable, and every reference that is
read from a text is.

A name with a `<` in it that is looked up from inside a type is not stable. Such a name may
stand for an instance around the type, until the type gets one of its own that has this text.

* `Reached.permanent`: slots, their codecs, and what leads to them.
* `shadowed_moves`: a path with such a name among its arguments.
-/

namespace Wireform

/-- Two codecs of one slot and one type, which give the same results. -/
structure TypeCodec.Same (codec again : TypeCodec) : Prop where
  id : again.id = codec.id
  type : again.type = codec.type
  encodeInto : ∀ value buffer, ending (again.encodeInto value) buffer =
    ending (codec.encodeInto value) buffer
  encode : ∀ value, again.encode value = codec.encode value
  decodePrefix : ∀ bytes, again.decodePrefix bytes = codec.decodePrefix bytes
  decode : ∀ bytes, again.decode bytes = codec.decode bytes

theorem TypeCodec.encode_eq (codec : TypeCodec) (value : Json) :
    codec.encode value = (ending (codec.encodeInto value) #[]).map fun found => found.2.toList := by
  unfold encode ending
  split <;> simp [*, Except.map]

theorem TypeCodec.decodePrefix_eq (codec : TypeCodec) (bytes : List UInt8) :
    codec.decodePrefix bytes = (ending (codec.arena.decode codec.id) (.ofBytes bytes)).map
      fun found => (found.1, found.2.offset) := by
  unfold decodePrefix ending
  split <;> simp [*, Except.map]

/-- What is appended to a buffer decides what the bytes of a value are. -/
theorem TypeCodec.encode_congr {codec again : TypeCodec}
    (h : ∀ value buffer, ending (again.encodeInto value) buffer =
      ending (codec.encodeInto value) buffer)
    (value : Json) : again.encode value = codec.encode value := by
  rw [encode_eq, encode_eq, h]

/-- What is read in front of some bytes decides what the bytes stand for. -/
theorem TypeCodec.decode_congr {codec again : TypeCodec}
    (h : ∀ bytes, again.decodePrefix bytes = codec.decodePrefix bytes) (bytes : List UInt8) :
    again.decode bytes = codec.decode bytes := by
  rw [decode, decode, h]

namespace Session

variable {s t : Session}

/-- Types refer to what was there with them, so a later arena agrees with this one. -/
theorem Persists.agree (h : Persists s t) (hs : s.Valid) :
    s.arena.Agree (fun id => id.index < s.arena.size) t.arena where
  get? := by
    intro id hid
    obtain ⟨more, hmore⟩ := h.slots
    have hlt : id.index < s.arena.slots.size := hid
    rw [Arena.get?, Arena.get?, hmore, Array.getElem?_append_left hlt]
  closed := fun id type _ htype part hpart => (hs.types id type htype).builds.references part hpart

/-- A slot that holds a type has the same codec later. -/
theorem Persists.same (h : Persists s t) (hs : s.Valid) {id : TypeId} {type : CompiledType}
    (hid : s.arena.get? id = some type) :
    TypeCodec.Same ⟨s.arena, id, type⟩ ⟨t.arena, id, type⟩ := by
  have hlt := s.arena.lt_size_of_get? hid
  have hagree := h.agree hs
  have hmin : ∀ id : TypeId, id.index < s.arena.size → s.arena.minSize id = t.arena.minSize id :=
    fun id hid => hagree.minSize_eq h.size_le hid
  have hencode : ∀ value buffer, ending (TypeCodec.encodeInto ⟨t.arena, id, type⟩ value) buffer =
      ending (TypeCodec.encodeInto ⟨s.arena, id, type⟩ value) buffer :=
    fun value => (hagree.symm.repeats_encode hlt value).ending_eq (hagree.repeats_encode hlt value)
  have hdecode : ∀ bytes, TypeCodec.decodePrefix ⟨t.arena, id, type⟩ bytes =
      TypeCodec.decodePrefix ⟨s.arena, id, type⟩ bytes := by
    intro bytes
    rw [TypeCodec.decodePrefix_eq, TypeCodec.decodePrefix_eq]
    have hback := hagree.symm.rereads_decode (fun id hid => (hmin id hid).symm) hlt
    rw [hback.ending_eq (hagree.rereads_decode hmin hlt) trivial]
  exact ⟨rfl, rfl, hencode, TypeCodec.encode_congr hencode, hdecode, TypeCodec.decode_congr hdecode⟩

end Session

namespace Schema

/-- The schemas to which further calls lead, in any order and whether they succeed or not. -/
inductive Leads (schema : Schema) : Schema → Prop where
  | refl : Leads schema schema
  | resolve {later : Schema} (h : Leads schema later) (text : String) :
      Leads schema (later.resolve text).2
  | resolveRef {later : Schema} (h : Leads schema later) (r : TypeRef) :
      Leads schema (later.resolveRef r).2

/-- A slot holds a type, and does so with the same codec whatever is resolved later. -/
def Fixed (schema : Schema) (id : TypeId) : Prop :=
  ∃ codec, schema.codec? id = some codec ∧
    ∀ later, schema.Leads later → ∃ again, later.codec? id = some again ∧ codec.Same again

variable {definitions : List (String × Definition)} {options : Options} {schema later : Schema}

/-! ### Calls -/

/-- A call that resolves a reference is a run of the session. -/
theorem run_of_resolveRef {r : TypeRef} {id : TypeId} (h : (schema.resolveRef r).1 = .ok id) :
    Session.resolveRef maxLevels r schema.session = .ok id (schema.resolveRef r).2.session := by
  unfold resolveRef outcome at h ⊢
  cases hrun : Session.resolveRef maxLevels r schema.session with
  | ok found t =>
    rw [hrun] at h
    obtain rfl := Except.ok.inj h
    rfl
  | error stop t =>
    rw [hrun] at h
    cases h

theorem resolveRef_of_run {r : TypeRef} {id : TypeId} {t : Session}
    (h : Session.resolveRef maxLevels r schema.session = .ok id t) :
    (schema.resolveRef r).1 = .ok id := by
  unfold resolveRef outcome
  rw [h]

theorem persists_resolveRef (h : schema.session.Complete) (r : TypeRef) :
    schema.session.Persists (schema.resolveRef r).2.session := by
  have hrun := Session.ensures_resolveRef h.toClosed maxLevels r
  unfold Ensures at hrun
  unfold resolveRef outcome
  split at hrun
  · next id t ht =>
    rw [ht]
    exact hrun.2.1
  · next stop t ht =>
    rw [ht]
    obtain ⟨rfl, -⟩ := hrun
    exact Session.Persists.refl _

/-- A text leads where its reference leads. -/
theorem resolve_snd (schema : Schema) (text : String) :
    (schema.resolve text).2 = schema ∨ ∃ r, (schema.resolve text).2 = (schema.resolveRef r).2 := by
  unfold resolve
  split
  · exact Or.inl rfl
  · next r _ =>
    refine Or.inr ⟨r, ?_⟩
    split
    · next heq => rw [heq]
    · next heq =>
      rw [heq]
      split <;> rfl

/-- A text that is resolved is a reference that is. -/
theorem exists_of_resolve {text : String} {codec : TypeCodec}
    (h : (schema.resolve text).1 = .ok codec) :
    ∃ r, TypeRef.parse text [] = .ok r ∧ (schema.resolveRef r).1 = .ok codec.id ∧
      (schema.resolve text).2 = (schema.resolveRef r).2 ∧
      (schema.resolveRef r).2.codec? codec.id = some codec := by
  unfold resolve at h ⊢
  split at h
  · cases h
  · next r hr =>
    refine ⟨r, hr, ?_⟩
    split at h
    · cases h
    · next id after hid =>
      rw [hid]
      cases hslot : after.codec? id with
      | none => rw [hslot] at h; cases h
      | some found =>
        rw [hslot] at h
        obtain rfl := Except.ok.inj h
        obtain ⟨type, htype, rfl⟩ := Option.map_eq_some_iff.1 hslot
        exact ⟨rfl, rfl, hslot⟩

/-- Later schemas are complete, and have all that the first one has. -/
theorem Leads.kept (hs : schema.session.Complete) (h : schema.Leads later) :
    later.session.Complete ∧ schema.session.Persists later.session := by
  have hresolved : ∀ {later : Schema} (r : TypeRef), later.session.Complete →
      (later.resolveRef r).2.session.Complete := by
    intro later r hlater
    rcases resolveRef_spec hlater r with ⟨id, -, hcomplete, -⟩ | ⟨stop, heq, -⟩
    · exact hcomplete
    · rwa [heq]
  induction h with
  | refl => exact ⟨hs, Session.Persists.refl _⟩
  | resolve h text ih =>
    obtain ⟨hlater, hpersists⟩ := ih
    rcases resolve_snd _ text with heq | ⟨r, heq⟩ <;> rw [heq]
    · exact ⟨hlater, hpersists⟩
    · exact ⟨hresolved r hlater, hpersists.trans (persists_resolveRef hlater r)⟩
  | resolveRef h r ih =>
    obtain ⟨hlater, hpersists⟩ := ih
    exact ⟨hresolved r hlater, hpersists.trans (persists_resolveRef hlater r)⟩

/-- Every slot that holds a type holds it for good. -/
theorem fixed_of_get? (hs : schema.session.Complete) {id : TypeId} {type : CompiledType}
    (hid : schema.session.arena.get? id = some type) : schema.Fixed id := by
  refine ⟨⟨schema.session.arena, id, type⟩, by rw [codec?, hid]; rfl, fun later hlater => ?_⟩
  obtain ⟨-, hpersists⟩ := hlater.kept hs
  exact ⟨⟨later.session.arena, id, type⟩, by rw [codec?, hpersists.get? hid]; rfl,
    hpersists.same hs.toValid hid⟩

/-- A stable name leads to the slot that it led to. -/
theorem Leads.resolveRef_again (hs : schema.session.Complete) {r : TypeRef} {id : TypeId}
    (hid : (schema.resolveRef r).1 = .ok id) (hname : r.isName = true)
    (hstable : r.isStable false = true) (h : (schema.resolveRef r).2.Leads later) :
    (later.resolveRef r).1 = .ok id := by
  have hafter := (Leads.resolveRef Leads.refl r : schema.Leads (schema.resolveRef r).2).kept hs
  obtain ⟨hlater, hpersists⟩ := h.kept hafter.1
  obtain ⟨v, hagain⟩ := Session.resolveRef_again hs.toClosed hname hstable (run_of_resolveRef hid)
    hlater.toClosed hpersists
  exact resolveRef_of_run hagain

/-- A slot to which a reference leads is fixed. -/
theorem fixed_of_resolveRef (hs : schema.session.Complete) {r : TypeRef} {id : TypeId}
    (hid : (schema.resolveRef r).1 = .ok id) : (schema.resolveRef r).2.Fixed id := by
  rcases resolveRef_spec hs r with ⟨found, hfound, hcomplete, hlt⟩ | ⟨stop, heq, -⟩
  · obtain rfl := Except.ok.inj (hfound.symm.trans hid)
    obtain ⟨type, htype⟩ := hcomplete.get? hlt
    exact fixed_of_get? hcomplete htype
  · rw [heq] at hid
    cases hid

/-- A text of a reference leads where the reference leads. -/
theorem resolve_of_resolveRef {text : String} {r : TypeRef} {codec : TypeCodec}
    (hr : TypeRef.parse text [] = .ok r) (hid : (schema.resolveRef r).1 = .ok codec.id)
    (hslot : (schema.resolveRef r).2.codec? codec.id = some codec) :
    (schema.resolve text).1 = .ok codec := by
  unfold resolve
  rw [hr]
  dsimp only
  split
  · next heq => rw [heq] at hid; cases hid
  · next heq =>
    rw [heq] at hid hslot
    obtain rfl := Except.ok.inj hid
    rw [hslot]

/-- A reference leads to a slot, and so does every text of it. -/
def Finds (schema : Schema) (r : TypeRef) (id : TypeId) : Prop :=
  (schema.resolveRef r).1 = .ok id ∧
    ∀ text, TypeRef.parse text [] = .ok r →
    ∃ codec, (schema.resolve text).1 = .ok codec ∧ codec.id = id

theorem finds_of_resolveRef (hs : schema.session.Complete) {r : TypeRef} {id : TypeId}
    (hid : (schema.resolveRef r).1 = .ok id) : schema.Finds r id := by
  refine ⟨hid, fun text hr => ?_⟩
  obtain ⟨codec, hslot, -⟩ := fixed_of_resolveRef hs hid
  obtain ⟨type, -, rfl⟩ := Reached.codec?_eq hslot
  exact ⟨⟨(schema.resolveRef r).2.session.arena, id, type⟩, resolve_of_resolveRef hr hid hslot, rfl⟩

/-! ### Permanence -/

/-- A template of one field, and another one of the same name with two fields, inside a type that
also has a template of arrays. -/
def shadowing : List (String × Definition) :=
  let field (key : String) : Field := .typed (some key) (.parameter "T")
  let bytes : Field := .typed (some "v") (.array (.named "u8") [.parameter "S"])
  [("N", .template ["T"] (.struct (.object [field "a"]))),
    ("A", .struct ⟨.object, [], [("N", .template ["T"] (.struct (.object [field "a", field "b"]))),
      ("B", .template ["S"] (.struct (.object [bytes])))]⟩)]

/-- The array inside the type that is as long as an instance that the name of its text stands
for. -/
def shadowed : TypeRef :=
  .ofKind (.path [⟨"A", none⟩, ⟨"B", some [[.type (.named "N<u8>"), .operator "sizeof"]]⟩])

/-- The schema of these templates. -/
def shadowingSchema : Schema := (compile shadowing {}).toOption.get (by decide +kernel)

theorem reached_shadowing : Reached shadowing {} shadowingSchema := .compile (eq_ok_get _)

namespace Reached

/-- **Resolved types are permanent, and names keep their types.** From any schema that can be
reached, whatever is resolved in between: the slot to which a reference or a text leads keeps its
type and its codec, and a stable name or path leads to it again. -/
theorem permanent (h : Reached definitions options schema) :
    (∀ r id, (schema.resolveRef r).1 = .ok id →
      (schema.resolveRef r).2.Fixed id ∧
      (r.isName = true → r.isStable false = true → ∀ later, (schema.resolveRef r).2.Leads later →
        later.Finds r id)) ∧
    ∀ text codec, (schema.resolve text).1 = .ok codec →
      (schema.resolve text).2.codec? codec.id = some codec ∧
      (schema.resolve text).2.Fixed codec.id ∧
      ∀ r, TypeRef.parse text [] = .ok r → r.isName = true →
        ∀ later, (schema.resolve text).2.Leads later → later.Finds r codec.id := by
  have hs := h.complete
  have hfinds : ∀ {r : TypeRef} {id : TypeId}, (schema.resolveRef r).1 = .ok id → r.isName = true →
      r.isStable false = true → ∀ later, (schema.resolveRef r).2.Leads later →
      later.Finds r id := by
    intro r id hid hname hstable later hlater
    have hafter : (schema.resolveRef r).2.session.Complete := ((Leads.refl.resolveRef r).kept hs).1
    exact finds_of_resolveRef (hlater.kept hafter).1 (hlater.resolveRef_again hs hid hname hstable)
  refine ⟨fun r id hid => ⟨fixed_of_resolveRef hs hid, hfinds hid⟩, fun text codec hcodec => ?_⟩
  obtain ⟨r, hr, hid, hafter, hslot⟩ := exists_of_resolve hcodec
  rw [hafter]
  refine ⟨hslot, fixed_of_resolveRef hs hid, ?_⟩
  intro r' hr' hname
  obtain rfl := Except.ok.inj (hr.symm.trans hr')
  exact hfinds hid hname (TypeRef.isStable_of_parse hr false)

theorem shadowing_permanent : ∃ schema codec, Reached shadowing {} schema ∧
    (schema.resolve "A.B<sizeof(N<u8>)>").1 = .ok codec ∧
    (schema.resolve "A.B<sizeof(N<u8>)>").2.Fixed codec.id ∧
    ∃ r, TypeRef.parse "A.B<sizeof(N<u8>)>" [] = .ok r ∧
      ((schema.resolve "A.B<sizeof(N<u8>)>").2.resolve "N<u8>").2.Finds r codec.id := by
  have hresolved : (shadowingSchema.resolve "A.B<sizeof(N<u8>)>").1.toOption.isSome = true :=
    by decide +kernel
  have hname : (TypeRef.parse "A.B<sizeof(N<u8>)>" []).toOption.map TypeRef.isName = some true := by
    decide +kernel
  obtain ⟨codec, hrun⟩ := exists_ok_of_isSome hresolved
  obtain ⟨r, hr, hname⟩ := Option.map_eq_some_iff.1 hname
  have hr := ok_of_toOption hr
  obtain ⟨-, hfixed, hfinds⟩ := (permanent reached_shadowing).2 _ codec hrun
  exact ⟨shadowingSchema, codec, reached_shadowing, hrun, hfixed, r, hr,
    hfinds r hr hname _ (Leads.refl.resolve "N<u8>")⟩

/-- **A path that does not keep its type.** The type gets an instance under the text that stood for
an instance around it. -/
theorem shadowed_moves : ∃ schema, Reached shadowing {} schema ∧
    shadowed.isName = true ∧ shadowed.canonical? = some "A.B<(N<u8> sizeof)>" ∧
    (schema.resolveRef shadowed).1 = .ok ⟨31⟩ ∧
    (((schema.resolveRef shadowed).2.resolve "A.N<u8>").2.resolveRef shadowed).1 = .ok ⟨34⟩ := by
  have hmoves :
      let before := (shadowingSchema.resolve "N<u8>").2
      let later := ((before.resolveRef shadowed).2.resolve "A.N<u8>").2
      (before.resolveRef shadowed).1.toOption = some ⟨31⟩ ∧
      (later.resolveRef shadowed).1.toOption = some ⟨34⟩ := by
    decide +kernel
  exact ⟨_, .resolve reached_shadowing "N<u8>", rfl, by decide +kernel, ok_of_toOption hmoves.1,
    ok_of_toOption hmoves.2⟩

end Reached

end Schema

end Wireform
