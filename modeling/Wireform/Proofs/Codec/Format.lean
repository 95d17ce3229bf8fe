import Wireform.Proofs.Codec.RoundTrip

/-!
# What an encoding is made of

An encoding that succeeds has appended the encodings of the parts of its value, in order.
Taken apart, the bytes of a struct are a bitmap and the bytes of its fields, those of an
array a bitmap, if elements may be `null`, and the bytes of its elements.

* `Codec.FieldBytes`, `Codec.ElementBytes`: what a part adds.
* `Codec.exists_of_emits_struct`, `Codec.exists_of_emits_array`, and one lemma for every other
  kind of layout.
* `Codec.StructFormat`, `Codec.ArrayFormat`: the parts together with the bits.
* `Arena.structFormat_of_encode`, `Arena.arrayFormat_of_encode`: **the bytes of a type**.
-/

namespace Wireform

namespace Emits

variable {x y : Encoding Unit} {bytes bytes' : List UInt8}

theorem unique (hx : Emits x bytes) (hx' : Emits x bytes') : bytes = bytes' := by
  have heq := (hx #[]).symm.trans (hx' #[])
  rw [Array.empty_append, Array.empty_append] at heq
  exact congrArg Array.toList (EStateM.Result.ok.inj heq).2

theorem not_fail {cause : CodecError} (h : Emits (failWith cause) bytes) : False := nomatch h #[]

theorem of_inside {step : PathStep} (h : Emits (Wireform.inside step x) bytes) : Emits x bytes :=
  fun buffer => (inside_ok_iff step).1 (h buffer)

/-- What a run appends it appends always, if it does not depend on the buffer. -/
theorem exists_of_run (h : Repeats x x) {buffer after : Array UInt8}
    (hrun : x buffer = .ok () after) :
    ∃ bytes, Emits x bytes ∧ after = buffer ++ bytes.toArray := by
  obtain ⟨out, rfl, hall⟩ := h.of_ok hrun
  refine ⟨out.toList, fun other => ?_, ?_⟩
  · rw [Array.toArray_toList]
    exact hall other
  · rw [Array.toArray_toList]

/-- Two steps append one after the other. -/
theorem exists_of_andThen (hx : Repeats x x) (hy : Repeats y y)
    (h : Emits (x >>= fun _ => y) bytes) :
    ∃ front back, bytes = front ++ back ∧ Emits x front ∧ Emits y back := by
  obtain ⟨_, mid, hfront, hback⟩ := exists_of_bind_ok (h #[])
  obtain ⟨front, hx, rfl⟩ := exists_of_run hx hfront
  obtain ⟨back, hy, hall⟩ := exists_of_run hy hback
  refine ⟨front, back, ?_, hx, hy⟩
  rw [Array.empty_append, Array.empty_append, List.append_toArray] at hall
  exact congrArg Array.toList hall

/-- What is emitted first stands in front. -/
theorem exists_of_emit {front : List UInt8} (hy : Repeats y y)
    (h : Emits (Wireform.emit front >>= fun _ => y) bytes) :
    ∃ back, bytes = front ++ back ∧ Emits y back := by
  obtain ⟨front', back, rfl, hfront, hback⟩ := exists_of_andThen (Repeats.emit front) hy h
  obtain rfl := hfront.unique (Emits.emit front)
  exact ⟨back, rfl, hback⟩

end Emits

namespace Codec

variable {encode : Encoder} {bytes : List UInt8}

/-- What an encoder appends does not depend on the buffer. -/
def Steady (encode : Encoder) : Prop := ∀ id value, Repeats (encode id value) (encode id value)

theorem exists_of_emits_arrayItems {value : Json} {f : List Json → Encoding Unit}
    (h : Emits (arrayItems value >>= f) bytes) :
    ∃ items, value = .array items ∧ Emits (f items) bytes := by
  cases value with
  | array items => exact ⟨items, rfl, h⟩
  | _ => exact absurd h Emits.not_fail

theorem emits_of_checkShape {shape : StructShape} {value : Json} {y : Encoding Unit}
    (h : Emits (checkShape shape value >>= fun _ => y) bytes) : Emits y bytes := by
  cases shape with
  | empty => exact h
  | object =>
    cases value with
    | object members => exact h
    | _ => exact absurd h Emits.not_fail
  | tuple =>
    cases value with
    | array items => exact h
    | _ => exact absurd h Emits.not_fail

theorem emits_of_checkLength {expected : ℕ} {items : List Json} {y : Encoding Unit}
    (h : Emits (checkLength expected items >>= fun _ => y) bytes) :
    items.length = expected ∧ Emits y bytes := by
  unfold checkLength at h
  split at h
  · next hlength => exact ⟨hlength, h⟩
  · exact absurd h Emits.not_fail

theorem emits_of_checkLimit {limit : Option ℕ} {count : ℕ} {y : Encoding Unit}
    (h : Emits (checkLimit limit count >>= fun _ => y) bytes) :
    (∀ greatest, limit = some greatest → count ≤ greatest) ∧ Emits y bytes := by
  cases limit with
  | none => exact ⟨(fun _ heq => nomatch heq), h⟩
  | some greatest =>
    unfold checkLimit at h
    dsimp only at h
    split at h
    · exact absurd h Emits.not_fail
    · next hle =>
      refine ⟨fun other heq => ?_, h⟩
      obtain rfl := Option.some.inj heq
      exact Nat.le_of_not_lt hle

/-! ### Structs -/

/-- The bytes of a field: those of a constant, or those of a value unless it may be missing and
is. -/
def FieldBytes (encode : Encoder) (value : Json) (field : FieldLayout)
    (bytes : List UInt8) : Prop :=
  match field.content with
  | .constant type constant _ => Emits (encode type constant) bytes
  | .literal _ => bytes = []
  | .value type presence =>
    if presence.isSome = true ∧ isPresent (valueAt? value field.place) = false then bytes = []
    else ∃ found, valueAt? value field.place = some found ∧ Emits (encode type found) bytes

theorem fieldBytes_of_emits {value : Json} {field : FieldLayout}
    (h : Emits (encodeField encode value field) bytes) :
    FieldBytes encode value field bytes := by
  obtain ⟨place, content⟩ := field
  cases content with
  | constant type constant verify => exact h.of_inside
  | literal literal => exact h.unique Emits.nothing
  | value type presence =>
    simp only [encodeField] at h
    unfold FieldBytes
    dsimp only
    cases hfound : valueAt? value place with
    | none =>
      cases presence with
      | none =>
        rw [hfound] at h
        exact absurd h Emits.not_fail
      | some bit =>
        rw [hfound] at h
        rw [if_pos ⟨rfl, rfl⟩]
        exact h.unique Emits.nothing
    | some found =>
      rw [hfound] at h
      cases presence with
      | none =>
        rw [if_neg fun hboth => Bool.false_ne_true hboth.1]
        exact ⟨found, rfl, h.of_inside⟩
      | some bit =>
        dsimp only at h
        by_cases hnull : found.isNull = true
        · rw [if_pos hnull] at h
          rw [if_pos ⟨rfl, by rw [isPresent, hnull, Bool.not_true]⟩]
          exact h.unique Emits.nothing
        · rw [if_neg hnull] at h
          rw [if_neg fun hboth => hnull (by simpa [isPresent] using hboth.2)]
          exact ⟨found, rfl, h.of_inside⟩

/-- The bytes of fields are those of each field, in order. -/
theorem exists_of_emits_fields (hsteady : Steady encode) {value : Json} {fields : List FieldLayout}
    (h : Emits (fields.forM (encodeField encode value)) bytes) :
    ∃ parts, bytes = parts.flatten ∧ List.Forall₂ (FieldBytes encode value) fields parts := by
  induction fields generalizing bytes with
  | nil => exact ⟨[], h.unique Emits.nothing, .nil⟩
  | cons field rest ih =>
    have hfield : Repeats (encodeField encode value field) (encodeField encode value field) :=
      repeats_encodeField Json.closed_all trivial field (fun _ _ _ _ => trivial)
        fun id _ part _ => hsteady id part
    have hrest : Repeats (rest.forM (encodeField encode value))
        (rest.forM (encodeField encode value)) :=
      repeats_encodeFields Json.closed_all trivial rest (fun _ _ _ _ _ _ => trivial)
        fun _ _ id _ part _ => hsteady id part
    obtain ⟨front, back, rfl, hfront, hback⟩ := Emits.exists_of_andThen hfield hrest h
    obtain ⟨parts, rfl, hparts⟩ := ih hback
    exact ⟨front :: parts, rfl, .cons (fieldBytes_of_emits hfront) hparts⟩

/-- The bytes of a struct are its bitmap and the bytes of its fields. -/
theorem exists_of_emits_struct (hsteady : Steady encode) {s : StructLayout} {value : Json}
    (hshape : s.shape ≠ .empty) (h : Emits (encodeStruct encode s value) bytes) : ∃ parts,
      bytes = bitmapBytes s.bitmapBytes (presenceBits s value) ++ parts.flatten ∧
      List.Forall₂ (FieldBytes encode value) s.fields parts := by
  unfold encodeStruct at h
  rw [if_neg hshape] at h
  have hfields : Repeats (s.fields.forM (encodeField encode value))
      (s.fields.forM (encodeField encode value)) :=
    repeats_encodeFields Json.closed_all trivial s.fields (fun _ _ _ _ _ _ => trivial)
      fun _ _ id _ part _ => hsteady id part
  obtain ⟨back, rfl, hback⟩ := Emits.exists_of_emit hfields (emits_of_checkShape h)
  obtain ⟨parts, rfl, hparts⟩ := exists_of_emits_fields hsteady hback
  exact ⟨parts, rfl, hparts⟩

/-! ### Arrays and lists -/

/-- The bytes of items are those of each item, in order. -/
theorem exists_of_emits_items {item : Json → Encoding Unit}
    (hitem : ∀ value, Repeats (item value) (item value)) {position : ℕ} {items : List Json}
    (h : Emits (encodeItems item position items) bytes) :
    ∃ parts, bytes = parts.flatten ∧
      List.Forall₂ (fun value part => Emits (item value) part) items parts := by
  induction items generalizing position bytes with
  | nil => exact ⟨[], h.unique Emits.nothing, .nil⟩
  | cons value rest ih =>
    have hrest := repeats_encodeItems rest (fun other _ => hitem other) (position + 1)
    obtain ⟨front, back, rfl, hfront, hback⟩ :=
      Emits.exists_of_andThen ((hitem value).inside (.index position)) hrest h
    obtain ⟨parts, rfl, hparts⟩ := ih hback
    exact ⟨front :: parts, rfl, .cons hfront.of_inside hparts⟩

/-- The bytes of an element of an array: none, if it may be `null` and is. -/
def ElementBytes (element : Json → Encoding Unit) (nullable : Bool) (item : Json)
    (bytes : List UInt8) : Prop :=
  if (nullable && item.isNull) = true then bytes = [] else Emits (element item) bytes

theorem elementBytes_of_emits {a : ArrayLayout} {item : Json}
    (h : Emits (encodeElement encode a item) bytes) :
    ElementBytes (elementEncoder encode a) a.nullable item bytes := by
  unfold encodeElement at h
  unfold ElementBytes
  split at h
  · next hnull =>
    rw [if_pos hnull]
    exact h.unique Emits.nothing
  · next hnull =>
    rw [if_neg hnull]
    exact h

/-- The bytes of an array are its bitmap, if it has one, and the bytes of its elements. -/
theorem exists_of_emits_array (hsteady : Steady encode) {a : ArrayLayout} {value : Json}
    (h : Emits (encodeArray encode a value) bytes) :
    ∃ items parts, value = .array items ∧ items.length = a.size ∧
      bytes = arrayBitmap a items ++ parts.flatten ∧
      List.Forall₂ (ElementBytes (elementEncoder encode a) a.nullable) items parts := by
  obtain ⟨items, rfl, h⟩ := exists_of_emits_arrayItems h
  obtain ⟨hlength, h⟩ := emits_of_checkLength h
  have helement : ∀ item, Repeats (encodeElement encode a item) (encodeElement encode a item) := by
    intro item
    unfold encodeElement
    split
    · exact Repeats.pure _
    · exact repeats_elementEncoder a (hsteady a.element item)
  have hitems := repeats_encodeItems items (fun item _ => helement item) 0
  obtain ⟨back, rfl, hback⟩ := Emits.exists_of_emit hitems h
  obtain ⟨parts, rfl, hparts⟩ := exists_of_emits_items helement hback
  exact ⟨items, parts, rfl, hlength, rfl, hparts.imp fun _ _ => elementBytes_of_emits⟩

/-- The bytes of a list are the count of its elements and the bytes of each. -/
theorem exists_of_emits_list (hsteady : Steady encode) {element : TypeId}
    {maxLength : Option ℕ} {value : Json}
    (h : Emits (encodeList encode element maxLength value) bytes) :
    ∃ items parts, value = .array items ∧
      (∀ greatest, maxLength = some greatest → items.length ≤ greatest) ∧
      bytes = Wire.uvarBytes items.length ++ parts.flatten ∧
      List.Forall₂ (fun item part => Emits (encode element item) part) items parts := by
  obtain ⟨items, rfl, h⟩ := exists_of_emits_arrayItems h
  obtain ⟨hlimit, h⟩ := emits_of_checkLimit h
  have hitems := repeats_encodeItems items (fun item _ => hsteady element item) 0
  obtain ⟨back, rfl, hback⟩ := Emits.exists_of_emit hitems h
  obtain ⟨parts, rfl, hparts⟩ := exists_of_emits_items (hsteady element) hback
  exact ⟨items, parts, rfl, hlimit, rfl, hparts⟩

/-! ### Other layouts -/

/-- A padded value has its own bytes in front, and zeros behind them. -/
theorem exists_of_emits_padded (hsteady : Steady encode) {inner : TypeId} {size : ℕ} {value : Json}
    (h : Emits (encodePadded encode inner size value) bytes) :
    ∃ front, Emits (encode inner value) front ∧
      front.length ≤ size ∧ bytes = front ++ List.replicate (size - front.length) 0 := by
  have hrun := h #[]
  cases hinner : encode inner value #[] with
  | error stop after =>
    have hfail : encodePadded encode inner size value #[] = .error stop after :=
      bind_of_error (x := encode inner value) hinner
    rw [hfail] at hrun
    cases hrun
  | ok _ after =>
    obtain ⟨front, hfront, rfl⟩ := Emits.exists_of_run (hsteady inner value) hinner
    rw [encodePadded_of_ok hinner, Array.empty_append, List.size_toArray, Array.size_empty,
      Nat.sub_zero] at hrun
    split at hrun
    · cases hrun
    · next hle =>
      refine ⟨front, hfront, Nat.le_of_not_lt hle, ?_⟩
      have heq := (EStateM.Result.ok.inj hrun).2
      rw [Array.empty_append, List.append_toArray] at heq
      exact (congrArg Array.toList heq).symm

/-- A run of bytes is as long as its layout says. -/
theorem length_of_emits_bytes {count : ℕ} {value : Json}
    (h : Emits (encodeBytes count value) bytes) :
    bytes.length = count := by
  obtain ⟨n, hn, hlow, hhigh⟩ := (writes_encodeBytes count value #[]).of_ok (h #[])
  rw [Array.empty_append, List.size_toArray, Array.size_empty, Nat.zero_add] at hn
  rw [hn]
  exact Nat.le_antisymm (Nat.cast_le.1 hhigh) (Nat.cast_le.1 hlow)

/-! ### Bits -/

/-- The bit with a given number, counted from the low end of each byte; a bitmap has none beyond its
end. -/
def bitAt? (bitmap : List UInt8) (index : ℕ) : Option Bool :=
  (bitmap[index / 8]?).map fun byte => byte.toNat.testBit (index % 8)

theorem getElem?_bitsOfBytes (bitmap : List UInt8) (index : ℕ) :
    (bitsOfBytes bitmap)[index]? = bitAt? bitmap index := by
  induction bitmap generalizing index with
  | nil => rfl
  | cons byte rest ih =>
    have hlength : ((List.range 8).map byte.toNat.testBit).length = 8 := by simp
    unfold bitsOfBytes
    rw [List.flatMap_cons]
    change ((List.range 8).map byte.toNat.testBit ++ bitsOfBytes rest)[index]? = _
    rcases Nat.lt_or_ge index 8 with hlt | hge
    · rw [List.getElem?_append_left (by omega), List.getElem?_map, List.getElem?_range hlt, bitAt?,
        Nat.div_eq_of_lt hlt, Nat.mod_eq_of_lt hlt]
      rfl
    · obtain ⟨index, rfl⟩ : ∃ i, index = i + 8 := ⟨index - 8, by omega⟩
      rw [List.getElem?_append_right (by omega), hlength, Nat.add_sub_cancel, ih, bitAt?, bitAt?,
        Nat.add_div_right index (by decide), Nat.add_mod_right, List.getElem?_cons_succ]

/-- The bits of a bitmap are those that it was made of, and zeros behind them. -/
theorem bitAt?_bitmapBytes {count : ℕ} {bits : List Bool} (h : bits.length ≤ 8 * count) {index : ℕ}
    (hindex : index < 8 * count) :
    bitAt? (bitmapBytes count bits) index = some (isSet bits index) := by
  rw [← getElem?_bitsOfBytes, bitsOfBytes_bitmapBytes h]
  unfold isSet
  rcases Nat.lt_or_ge index bits.length with hlt | hge
  · rw [List.getElem?_append_left hlt, List.getElem?_eq_getElem hlt]
    rfl
  · have hzeros : index - bits.length < 8 * count - bits.length := by omega
    rw [List.getElem?_append_right hge, List.getElem?_eq_none hge, List.getElem?_replicate,
      if_pos hzeros]
    rfl

/-- The bytes of a struct's value: a bitmap with the bits of the fields that may be missing, and the
bytes of the fields in order. -/
structure StructFormat (encode : Encoder) (fields : List FieldLayout) (flags : ℕ) (value : Json)
    (bitmap : List UInt8) (parts : List (List UInt8)) : Prop where
  /-- As many bytes as the bits need. -/
  length : bitmap.length = bitmapLength flags
  /-- The bit of a field is in the bitmap, and tells whether the value is there. -/
  bits : ∀ field ∈ fields, ∀ bit, field.bit? = some bit →
    bitAt? bitmap bit = some (isPresent (valueAt? value field.place))
  /-- No other bit is set. -/
  zeros : ∀ bit, flags ≤ bit → bitAt? bitmap bit ≠ some true
  parts : List.Forall₂ (FieldBytes encode value) fields parts

/-- The bytes of an array's value: a bitmap with a bit for each element, if elements may be `null`,
and the bytes of the elements in order. -/
structure ArrayFormat (encode : Encoder) (a : ArrayLayout) (items : List Json) (bitmap : List UInt8)
    (parts : List (List UInt8)) : Prop where
  /-- There is a bitmap only if there are bits, and it has as many bytes as they need. -/
  length : bitmap.length = if a.nullable then bitmapLength a.size else 0
  /-- The bit of an element is in the bitmap, and tells whether the element is there. -/
  bits : a.nullable = true → ∀ i item, items[i]? = some item → bitAt? bitmap i = some (!item.isNull)
  /-- No other bit is set. -/
  zeros : ∀ bit, a.size ≤ bit → bitAt? bitmap bit ≠ some true
  parts : List.Forall₂ (ElementBytes (encode a.element) a.nullable) items parts

/-- A bit that is not set among those a bitmap was made of is not set in it. -/
theorem bitAt?_ne_true {count : ℕ} {bits : List Bool} (h : bits.length ≤ 8 * count) {index : ℕ}
    (hclear : isSet bits index = false) : bitAt? (bitmapBytes count bits) index ≠ some true := by
  intro htrue
  by_cases hinside : index < 8 * count
  · rw [bitAt?_bitmapBytes h hinside, hclear] at htrue
    cases htrue
  · have hnone : (bitmapBytes count bits)[index / 8]? = none := by
      rw [List.getElem?_eq_none_iff, length_bitmapBytes]
      omega
    rw [bitAt?, hnone] at htrue
    cases htrue

/-- **The bytes of a struct.** -/
theorem structFormat_of_emits (hsteady : Steady encode) {s : StructLayout}
    {flags : ℕ} {value : Json} (hshape : s.shape ≠ .empty)
    (hflags : s.fields.filterMap FieldLayout.bit? = List.range flags)
    (hbytes : s.bitmapBytes = bitmapLength flags) (h : Emits (encodeStruct encode s value) bytes) :
    ∃ bitmap parts, bytes = bitmap ++ parts.flatten ∧
      StructFormat encode s.fields flags value bitmap parts := by
  obtain ⟨parts, rfl, hparts⟩ := exists_of_emits_struct hsteady hshape h
  have hfits : (presenceBits s value).length ≤ 8 * s.bitmapBytes := (length_presenceBits s value).le
  refine ⟨_, parts, rfl, ⟨?_, fun field hfield bit hbit => ?_, fun bit hbit => ?_, hparts⟩⟩
  · rw [length_bitmapBytes, hbytes]
  · have hmem : bit ∈ List.range flags := hflags ▸ List.mem_filterMap.2 ⟨field, hfield, hbit⟩
    have hlt := (List.mem_range.1 hmem).trans_le (le_bitmapLength flags)
    rw [bitAt?_bitmapBytes hfits (hbytes ▸ hlt),
      bitsMatch_presenceBits hflags hbytes value field hfield bit hbit]
  · -- a bit that is set is that of a field, and these are the first ones
    refine bitAt?_ne_true hfits (Bool.eq_false_iff.2 fun hset => ?_)
    obtain ⟨field, hfield, hown, -⟩ := mem_presentBits.1 (isSet_presenceBits.1 hset).2
    have hmem : bit ∈ List.range flags := hflags ▸ List.mem_filterMap.2 ⟨field, hfield, hown⟩
    exact absurd (List.mem_range.1 hmem) (by omega)

/-- **The bytes of an array**, whose elements are encoded as their type says. -/
theorem arrayFormat_of_emits (hsteady : Steady encode) {a : ArrayLayout} {value : Json}
    {full : Encoder}
    (helement : ∀ item part, Emits (elementEncoder encode a item) part →
      Emits (full a.element item) part)
    (h : Emits (encodeArray encode a value) bytes) : ∃ items bitmap parts, value = .array items ∧
      items.length = a.size ∧ bytes = bitmap ++ parts.flatten ∧
      ArrayFormat full a items bitmap parts := by
  obtain ⟨items, parts, rfl, hlength, rfl, hparts⟩ := exists_of_emits_array hsteady h
  have hfull : List.Forall₂ (ElementBytes (full a.element) a.nullable) items parts := by
    refine hparts.imp fun item part hpart => ?_
    unfold ElementBytes at hpart ⊢
    split
    · next hnull => rwa [if_pos hnull] at hpart
    · next hnull =>
      rw [if_neg hnull] at hpart
      exact helement item part hpart
  have hbits : (items.map fun item => !item.isNull).length ≤ 8 * bitmapLength a.size := by
    rw [List.length_map, hlength]
    exact le_bitmapLength a.size
  refine ⟨items, arrayBitmap a items, parts, rfl, hlength, rfl, ?_,
    fun hnullable i item hitem => ?_, fun bit hbit => ?_, hfull⟩
  · unfold arrayBitmap
    split
    · exact length_bitmapBytes _ _
    · rfl
  · have hlt : i < a.size := hlength ▸ (List.getElem?_eq_some_iff.1 hitem).1
    rw [arrayBitmap, if_pos hnullable,
      bitAt?_bitmapBytes hbits (Nat.lt_of_lt_of_le hlt (le_bitmapLength _)), isSet,
      List.getElem?_map, hitem]
    rfl
  · unfold arrayBitmap
    split
    · refine bitAt?_ne_true hbits ?_
      rw [isSet, List.getElem?_eq_none (by rw [List.length_map, hlength]; exact hbit)]
      rfl
    · intro hnone
      cases hnone

theorem FieldBytes.mono {full : Encoder}
    (hfull : ∀ id value bytes, Emits (encode id value) bytes → Emits (full id value) bytes)
    {value : Json} {field : FieldLayout} (h : FieldBytes encode value field bytes) :
    FieldBytes full value field bytes := by
  obtain ⟨place, content⟩ := field
  cases content with
  | constant type constant verify => exact hfull _ _ _ h
  | literal literal => exact h
  | value type presence =>
    unfold FieldBytes at h ⊢
    dsimp only at h ⊢
    split
    · next habsent => rwa [if_pos habsent] at h
    · next hpresent =>
      rw [if_neg hpresent] at h
      obtain ⟨found, hfound, hemits⟩ := h
      exact ⟨found, hfound, hfull _ _ _ hemits⟩

end Codec

/-! ### Types -/

namespace Arena

variable {arena : Arena}

theorem steady_encodeWithin (levels : ℕ) : Codec.Steady (arena.encodeWithin levels) :=
  fun _ value => (Agree.refl arena).repeats_encodeWithin (Nat.le_refl _) trivial value

theorem steady_encode : Codec.Steady arena.encode :=
  fun _ value => (Agree.refl arena).repeats_encode trivial value

/-- What is appended at some number of levels is what `encode` appends. -/
theorem emits_encode {levels : ℕ} {id : TypeId} {value : Json} {bytes : List UInt8}
    (h : Emits (arena.encodeWithin levels id value) bytes) : Emits (arena.encode id value) bytes :=
  h.of_repeats (repeats_encode levels id value)

variable {id : TypeId} {type : CompiledType} {value : Json} {buffer after : Array UInt8}

/-- An encoding that succeeds goes through the layout of its type. -/
theorem exists_of_encode (hid : arena.get? id = some type)
    (h : arena.encode id value buffer = .ok () after) :
    ∃ levels bytes, Emits (Codec.encodeStep (arena.encodeWithin levels) type.layout value) bytes ∧
      after = buffer ++ bytes.toArray := by
  obtain ⟨bytes, hemits, rfl⟩ := Emits.exists_of_run (steady_encode id value) h
  refine ⟨arena.size * (value.weight + arena.constantWeight), bytes, ?_, rfl⟩
  rw [← encodeWithin_succ hid]
  exact hemits

/-- **The bytes of a struct type.** -/
theorem structFormat_of_encode {l : StructLayout} {flags : ℕ} (hid : arena.get? id = some type)
    (hl : type.layout = .struct l) (hshape : l.shape ≠ .empty)
    (hflags : l.fields.filterMap FieldLayout.bit? = List.range flags)
    (hbytes : l.bitmapBytes = bitmapLength flags)
    (h : arena.encode id value buffer = .ok () after) : ∃ bitmap parts,
      after = buffer ++ (bitmap ++ parts.flatten).toArray ∧
      Codec.StructFormat arena.encode l.fields flags value bitmap parts := by
  obtain ⟨levels, bytes, hemits, rfl⟩ := exists_of_encode hid h
  rw [hl] at hemits
  obtain ⟨bitmap, parts, rfl, hformat⟩ :=
    Codec.structFormat_of_emits (steady_encodeWithin levels) hshape hflags hbytes hemits
  refine ⟨bitmap, parts, rfl, hformat.length, hformat.bits, hformat.zeros, ?_⟩
  exact hformat.parts.imp fun _ _ hpart => hpart.mono fun _ _ _ => emits_encode

/-- **The bytes of an array type.** Elements that are numbers of fixed width are encoded as
their type says, too. -/
theorem arrayFormat_of_encode {a : ArrayLayout} (hid : arena.get? id = some type)
    (hl : type.layout = .array a) (hnumeric : ∀ p, a.numeric = some p → arena.Carries a.element p)
    (h : arena.encode id value buffer = .ok () after) : ∃ items bitmap parts, value = .array items ∧
      items.length = a.size ∧ after = buffer ++ (bitmap ++ parts.flatten).toArray ∧
      Codec.ArrayFormat arena.encode a items bitmap parts := by
  obtain ⟨levels, bytes, hemits, rfl⟩ := exists_of_encode hid h
  rw [hl] at hemits
  have helement :
      ∀ item part, Emits (Codec.elementEncoder (arena.encodeWithin levels) a item) part →
      Emits (arena.encode a.element item) part := by
    intro item part hpart
    unfold Codec.elementEncoder at hpart
    cases hp : a.numeric with
    | none =>
      rw [hp] at hpart
      exact emits_encode hpart
    | some p =>
      rw [hp] at hpart
      obtain ⟨more, hmore⟩ := (hnumeric p hp).encodeWithin
      change Emits (p.encode item) part at hpart
      rw [← hmore item] at hpart
      exact emits_encode hpart
  obtain ⟨items, bitmap, parts, rfl, hlength, rfl, hformat⟩ :=
    Codec.arrayFormat_of_emits (steady_encodeWithin levels) helement hemits
  exact ⟨items, bitmap, parts, rfl, hlength, rfl, hformat⟩

end Arena

end Wireform
