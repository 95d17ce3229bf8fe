import Wireform.Codec.Decoding
import Wireform.Proofs.Codec.Lengths

/-!
# Decoding reads a front of the input

`Reads x`: if `x` succeeds it has taken bytes off the front of the input and counted
them, and if it fails the reason is not an empty slot.

* `reads_decodeStep`: one level of a layout does so if its parts do.
* `Arena.reads_decodeWithin`: any type of an arena, at any number of levels.
-/

namespace Wireform

/-- The bytes between two cursors have been taken. -/
def Cursor.Before (c after : Cursor) : Prop :=
  ∃ taken, c.rest = taken ++ after.rest ∧ after.offset = c.offset + taken.length

theorem Cursor.Before.refl (c : Cursor) : c.Before c := ⟨[], rfl, rfl⟩

theorem Cursor.Before.trans {a b c : Cursor} (hab : a.Before b) (hbc : b.Before c) :
    a.Before c := by
  obtain ⟨taken, hrest, hoffset⟩ := hab
  obtain ⟨taken', hrest', hoffset'⟩ := hbc
  refine ⟨taken ++ taken', by rw [hrest, hrest', List.append_assoc], ?_⟩
  rw [hoffset', hoffset, List.length_append, Nat.add_assoc]

/-- A result has taken bytes off the front; an error is not about an empty slot. -/
def Reads {α : Type} (x : Decoding α) : Prop :=
  ∀ c, Ensures c x (fun _ after => c.Before after) fun stop _ => stop.Filled

namespace Reads

variable {α β : Type} {x : Decoding α}

theorem pure (a : α) : Reads (Pure.pure a) := fun c => Cursor.Before.refl c

theorem fail {cause : CodecError} (h : ∀ slot, cause ≠ .unresolved slot) :
    Reads (failWith (α := α) cause) := by
  intro c path slot heq
  cases heq
  exact h slot rfl

theorem bind {f : α → Decoding β} (hx : Reads x) (hf : ∀ a, Reads (f a)) : Reads (x >>= f) := by
  intro c
  refine Ensures.bind (hx c) fun a mid hmid => ?_
  exact Ensures.mono (hf a mid) (fun _ _ hafter => hmid.trans hafter) fun _ _ h => h

theorem inside (step : PathStep) (h : Reads x) : Reads (Wireform.inside step x) :=
  fun c => (h c).inside step

end Reads

/-! ### Bytes -/

/-- Reading that is too short is another error, and no other result. -/
theorem read_ok_iff {α : Type} {x : Reading α} {c after : Cursor} {a : α} :
    read x c = .ok a after ↔ x c = .ok a after := by
  unfold read
  split
  · next heq => simp [heq]
  · next heq => simp [heq]

/-- Bytes are read as a value, whatever follows and wherever they stand. -/
def Yields {ε α : Type} (x : EStateM ε Cursor α) (bytes : List UInt8) (a : α) : Prop :=
  ∀ rest offset, x ⟨bytes ++ rest, offset⟩ = .ok a ⟨rest, offset + bytes.length⟩

namespace Yields

variable {ε α β : Type} {x : EStateM ε Cursor α} {bytes bytes' : List UInt8} {a : α}

theorem pure (a : α) : Yields (Pure.pure a : EStateM ε Cursor α) [] a := fun _ _ => rfl

theorem bind {f : α → EStateM ε Cursor β} {b : β} (hx : Yields x bytes a)
    (hf : Yields (f a) bytes' b) :
    Yields (x >>= f) (bytes ++ bytes') b := by
  intro rest offset
  rw [List.append_assoc, bind_of_ok (hx _ _), hf, List.length_append, Nat.add_assoc]

/-- After the last bytes a step without any. -/
theorem last {f : α → EStateM ε Cursor β} {b : β} (hx : Yields x bytes a) (hf : Yields (f a) [] b) :
    Yields (x >>= f) bytes b := by
  have h := hx.bind hf
  rwa [List.append_nil] at h

theorem read {x : Reading α} (h : Yields x bytes a) : Yields (Wireform.read x) bytes a :=
  fun rest offset => read_ok_iff.2 (h rest offset)

theorem inside {x : Decoding α} (step : PathStep) (h : Yields x bytes a) :
    Yields (Wireform.inside step x) bytes a :=
  fun rest offset => (inside_ok_iff step).2 (h rest offset)

theorem take (bytes : List UInt8) : Yields (Cursor.take bytes.length) bytes bytes :=
  fun rest offset => Cursor.take_append bytes rest offset

end Yields

/-- Reading that takes bytes off the front and looks at nothing else. -/
def Takes {ε α : Type} (x : EStateM ε Cursor α) : Prop :=
  ∀ c a after, x c = .ok a after → ∃ taken, c.rest = taken ++ after.rest ∧ Yields x taken a

namespace Takes

variable {ε α β : Type} {x : EStateM ε Cursor α}

theorem before (hx : Takes x) {c : Cursor} {a : α} {after : Cursor} (h : x c = .ok a after) :
    c.Before after := by
  obtain ⟨taken, hrest, hyields⟩ := hx c a after h
  have hsame := hyields after.rest c.offset
  rw [← hrest, h] at hsame
  exact ⟨taken, hrest, congrArg Cursor.offset (EStateM.Result.ok.inj hsame).2⟩

theorem pure (a : α) : Takes (Pure.pure a : EStateM ε Cursor α) := by
  intro c b after h
  cases h
  exact ⟨[], rfl, Yields.pure a⟩

theorem fail (cause : CodecError) : Takes (failWith (α := α) cause) := by
  intro c a after h
  cases h

theorem bind {f : α → EStateM ε Cursor β} (hx : Takes x) (hf : ∀ a, Takes (f a)) :
    Takes (x >>= f) := by
  intro c b after h
  obtain ⟨a, mid, hfirst, hlast⟩ := exists_of_bind_ok h
  obtain ⟨taken, hrest, hx⟩ := hx c a mid hfirst
  obtain ⟨taken', hrest', hf⟩ := hf a mid b after hlast
  exact ⟨taken ++ taken', by rw [hrest, hrest', List.append_assoc], hx.bind hf⟩

theorem read {x : Reading α} (hx : Takes x) : Takes (Wireform.read x) := by
  intro c a after h
  obtain ⟨taken, hrest, hyields⟩ := hx c a after (read_ok_iff.1 h)
  exact ⟨taken, hrest, hyields.read⟩

end Takes

section Readings

variable {α : Type}

theorem take_ok {count : ℕ} {c after : Cursor} {bytes : List UInt8}
    (h : Cursor.take count c = .ok bytes after) :
    c.rest = bytes ++ after.rest ∧ bytes.length = count := by
  unfold Cursor.take at h
  split at h
  · next taken rest hsplit =>
    cases h
    exact splitExact?_eq_some hsplit
  · cases h

theorem takes_take (count : ℕ) : Takes (Cursor.take count) := by
  intro c bytes after h
  obtain ⟨hrest, rfl⟩ := take_ok h
  exact ⟨bytes, hrest, Yields.take bytes⟩

theorem takes_byte : Takes Cursor.byte := by
  intro c first after h
  unfold Cursor.byte at h
  split at h
  · next first rest hrest =>
    cases h
    exact ⟨[first], hrest, fun _ _ => rfl⟩
  · cases h

theorem takes_uint (order : ByteOrder) (width : ℕ) : Takes (Cursor.uint order width) :=
  (takes_take width).bind fun _ => Takes.pure _

theorem takes_int (order : ByteOrder) (width : ℕ) : Takes (Cursor.int order width) :=
  (takes_take width).bind fun _ => Takes.pure _

theorem takes_uvar : Takes Cursor.uvar := by
  refine takes_byte.bind fun first => ?_
  dsimp only
  split
  · exact takes_uint _ _
  · exact (takes_uint _ _).bind fun _ => Takes.pure _

theorem takes_decodeText (encoding : TextEncoding) : Takes (Primitive.decodeText encoding) := by
  refine takes_uvar.read.bind fun length => ?_
  refine (takes_take length).read.bind fun bytes => ?_
  split
  · exact Takes.pure _
  · exact Takes.fail _

theorem takes_primitive (p : Primitive) : Takes p.decode := by
  cases p with
  | uint width order | single order | double order =>
    exact (takes_uint _ _).read.bind fun _ => Takes.pure _
  | int width order => exact (takes_int _ _).read.bind fun _ => Takes.pure _
  | bool => exact takes_byte.read.bind fun _ => Takes.pure _
  | uvar | ivar => exact takes_uvar.read.bind fun _ => Takes.pure _
  | string encoding => exact (takes_decodeText encoding).bind fun _ => Takes.pure _
  | json =>
    refine (takes_decodeText .utf8).bind fun text => ?_
    split
    · exact Takes.pure _
    · exact Takes.fail _
  | date =>
    refine (takes_int _ _).read.bind fun millis => ?_
    split
    · exact Takes.pure _
    · exact Takes.fail _

theorem reads_read {x : Reading α} (h : Takes x) : Reads (read x) := by
  intro c
  unfold Ensures read
  cases hrun : x c with
  | ok a after => exact h.before hrun
  | error short after => exact fun _ _ heq => nomatch heq

theorem reads_decodeText (encoding : TextEncoding) : Reads (Primitive.decodeText encoding) := by
  unfold Primitive.decodeText
  refine (reads_read takes_uvar).bind fun length => ?_
  refine (reads_read (takes_take length)).bind fun bytes => ?_
  split
  · exact Reads.pure _
  · exact Reads.fail (by simp)

theorem reads_primitive (p : Primitive) : Reads p.decode := by
  cases p with
  | uint width order | single order | double order =>
    exact (reads_read (takes_uint _ _)).bind fun _ => Reads.pure _
  | int width order => exact (reads_read (takes_int _ _)).bind fun _ => Reads.pure _
  | bool => exact (reads_read takes_byte).bind fun _ => Reads.pure _
  | uvar | ivar => exact (reads_read takes_uvar).bind fun _ => Reads.pure _
  | string encoding => exact (reads_decodeText encoding).bind fun _ => Reads.pure _
  | json =>
    refine (reads_decodeText .utf8).bind fun text => ?_
    split
    · exact Reads.pure _
    · exact Reads.fail (by simp)
  | date =>
    refine (reads_read (takes_int _ _)).bind fun millis => ?_
    split
    · exact Reads.pure _
    · exact Reads.fail (by simp)

end Readings

/-! ### Layouts -/

namespace Codec

variable {decode : Decoder} {minSize : TypeId → ℕ}

theorem reads_decodeField (bits : List Bool) (field : FieldLayout)
    (h : ∀ id, field.reference? = some id → Reads (decode id)) :
    Reads (decodeField decode bits field) := by
  obtain ⟨place, content⟩ := field
  cases content with
  | constant type constant verify =>
    refine (Reads.inside _ (h type rfl)).bind fun found => ?_
    dsimp only
    split
    · exact Reads.fail (by simp)
    · exact Reads.pure _
  | literal value => exact Reads.pure _
  | value type presence =>
    cases presence with
    | none => exact (Reads.inside _ (h type rfl)).bind fun _ => Reads.pure _
    | some bit =>
      simp only [decodeField]
      split
      · exact (Reads.inside _ (h type rfl)).bind fun _ => Reads.pure _
      · exact Reads.pure _

theorem reads_decodeFields (bits : List Bool) (fields : List FieldLayout)
    (h : ∀ id ∈ fields.filterMap FieldLayout.reference?, Reads (decode id)) (g : Gathered) :
    Reads (decodeFields decode bits g fields) := by
  induction fields generalizing g with
  | nil => exact Reads.pure _
  | cons field rest ih =>
    refine (reads_decodeField bits field fun id hid =>
      h id (List.mem_filterMap.2 ⟨field, List.mem_cons_self, hid⟩)).bind fun value => ?_
    refine ih (fun id hid => ?_) _
    obtain ⟨other, ho, hid⟩ := List.mem_filterMap.1 hid
    exact h id (List.mem_filterMap.2 ⟨other, List.mem_cons_of_mem _ ho, hid⟩)

theorem reads_decodeStruct (s : StructLayout)
    (h : ∀ id ∈ (Layout.struct s).references, Reads (decode id)) :
    Reads (decodeStruct decode s) := by
  refine (reads_read (takes_take _)).bind fun bitmap => ?_
  refine (reads_decodeFields _ s.fields h _).bind fun g => ?_
  split <;> exact Reads.pure _

/-- The room is checked without taking anything. -/
theorem checkRoom_eq (count least : ℕ) (c : Cursor) : checkRoom count least c =
    if c.rest.length < Arena.saturatingMul count least then
      .error (.failure ⟨[], .unexpectedEnd (Arena.saturatingMul count least) c.offset⟩) c
    else .ok () c := by
  change (if c.rest.length < Arena.saturatingMul count least then
    failWith (.unexpectedEnd (Arena.saturatingMul count least) c.offset)
    else pure () : Decoding Unit) c = _
  split <;> rfl

theorem reads_checkRoom (count least : ℕ) : Reads (checkRoom count least) := by
  intro c
  unfold Ensures
  rw [checkRoom_eq]
  by_cases hshort : c.rest.length < Arena.saturatingMul count least
  · rw [if_pos hshort]
    exact fun _ _ heq => nomatch heq
  · rw [if_neg hshort]
    exact Cursor.Before.refl c

/-- The room is checked before the bytes that need it. -/
theorem yields_checkRoom {count least : ℕ} {bytes : List UInt8}
    (hroom : count * least ≤ bytes.length) {α : Type} {y : Unit → Decoding α} {a : α}
    (h : Yields (y ()) bytes a) :
    Yields (checkRoom count least >>= y) bytes a := by
  intro rest offset
  have hneeded : Arena.saturatingMul count least ≤ (bytes ++ rest).length := by
    rw [List.length_append]
    exact (Nat.min_le_left _ _).trans (hroom.trans (Nat.le_add_right _ _))
  have hcheck : checkRoom count least ⟨bytes ++ rest, offset⟩ = .ok () ⟨bytes ++ rest, offset⟩ := by
    rw [checkRoom_eq, if_neg (Nat.not_lt_of_le hneeded)]
  rw [bind_of_ok hcheck]
  exact h rest offset

theorem reads_decodeItems {item : ℕ → Decoding Json} (h : ∀ position, Reads (item position))
    (count position : ℕ) (before : List Json) : Reads (decodeItems item count position before) := by
  induction count generalizing position before with
  | zero => exact Reads.pure _
  | succ count ih => exact (Reads.inside _ (h position)).bind fun value => ih _ _

theorem reads_decodeArray (a : ArrayLayout) (h : Reads (decode a.element)) :
    Reads (decodeArray decode minSize a) := by
  have hbits : Reads (decodeBits a) := by
    unfold decodeBits
    split
    · exact (reads_read (takes_take _)).bind fun _ => Reads.pure _
    · exact Reads.pure _
  have helement : Reads (elementDecoder decode a) := by
    unfold elementDecoder
    split
    · exact reads_primitive _
    · exact h
  refine hbits.bind fun bits => ?_
  refine (reads_checkRoom _ _).bind fun _ => ?_
  refine (reads_decodeItems (fun position => ?_) _ _ _).bind fun items => Reads.pure _
  unfold decodeElement
  split
  · exact helement
  · exact Reads.pure _

theorem reads_checkLimit (limit : Option ℕ) (count : ℕ) : Reads (checkLimit limit count) := by
  intro c
  refine Ensures.mono (looks_checkLimit limit count c) ?_ fun _ _ h => h
  rintro _ _ ⟨rfl, -⟩
  exact Cursor.Before.refl _

theorem reads_checkItems (least count : ℕ) : Reads (checkItems least count) := by
  unfold checkItems
  split
  · exact reads_checkLimit _ _
  · exact reads_checkRoom _ _

theorem reads_decodeList (element : TypeId) (maxLength : Option ℕ) (h : Reads (decode element)) :
    Reads (decodeList decode minSize element maxLength) := by
  refine (reads_read takes_uvar).bind fun count => ?_
  refine (reads_checkLimit maxLength count).bind fun _ => ?_
  refine (reads_checkItems _ count).bind fun _ => ?_
  exact (reads_decodeItems (fun _ => h) _ _ _).bind fun items => Reads.pure _

theorem reads_decodePadded (inner : TypeId) (size : ℕ) (h : Reads (decode inner)) :
    Reads (decodePadded decode inner size) := by
  refine (reads_read (takes_take size)).bind fun window => ?_
  intro outer
  -- what the value leaves of its window is dropped
  have hinner := h (Cursor.ofBytes window)
  unfold Ensures at *
  dsimp only
  cases hrun : decode inner (Cursor.ofBytes window) with
  | ok value after => exact Cursor.Before.refl outer
  | error stop after =>
    rw [hrun] at hinner
    exact hinner

/-- A payload is refused for its kind only. -/
theorem withDiscriminant_error {e : EnumLayout} {variant : VariantLayout} {payload : Json}
    {cause : CodecError} (h : withDiscriminant e variant payload = .error cause) :
    ∃ kind found, cause = .typeMismatch kind found := by
  unfold withDiscriminant at h
  split at h <;> split at h <;> try split at h
  all_goals first
    | exact ⟨_, _, (Except.error.inj h).symm⟩
    | cases h

theorem reads_decodeEnum (e : EnumLayout)
    (h : ∀ id ∈ (Layout.enum e).references, Reads (decode id)) : Reads (decodeEnum decode e) := by
  refine (h e.tag List.mem_cons_self).bind fun tag => ?_
  split
  · exact Reads.fail (by simp)
  · next variant hfind =>
    have hmem := List.mem_of_find?_eq_some hfind
    have hpayload := h variant.payload (List.mem_cons_of_mem _ (List.mem_map_of_mem hmem))
    refine (Reads.inside _ hpayload).bind fun payload => ?_
    split
    · exact Reads.pure _
    · next cause hcause =>
      obtain ⟨kind, other, rfl⟩ := withDiscriminant_error hcause
      exact Reads.fail nofun

/-- **One level of a layout.** -/
theorem reads_decodeStep (layout : Layout) (h : ∀ id ∈ layout.references, Reads (decode id)) :
    Reads (decodeStep decode minSize layout) := by
  cases layout with
  | primitive p => exact reads_primitive p
  | struct s => exact reads_decodeStruct s h
  | array a => exact reads_decodeArray a (h a.element (List.mem_singleton_self _))
  | enum e => exact reads_decodeEnum e h
  | synonym target => exact h target (List.mem_singleton_self _)
  | list element maxLength =>
    exact reads_decodeList element maxLength (h element (List.mem_singleton_self _))
  | padded inner size => exact reads_decodePadded inner size (h inner (List.mem_singleton_self _))
  | bytes count => exact (reads_read (takes_take count)).bind fun _ => Reads.pure _

end Codec

/-- Any type of an arena, at any number of levels. -/
theorem Arena.Grounded.reads {arena : Arena} (h : arena.Grounded) (levels : ℕ) {id : TypeId}
    (hid : id.index < arena.size) : Reads (arena.decodeWithin levels id) := by
  induction levels generalizing id with
  | zero => exact fun _ _ _ heq => nomatch heq
  | succ levels ih =>
    obtain ⟨type, htype⟩ := h.filled id hid
    unfold Arena.decodeWithin
    rw [htype]
    exact Codec.reads_decodeStep type.layout fun part hpart =>
      ih ((h.builds id type htype).references part hpart)

end Wireform
