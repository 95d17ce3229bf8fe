import Mathlib.Algebra.Order.BigOperators.Group.List
import Mathlib.Data.ENat.Basic
import Wireform.Codec.Encoding
import Wireform.Proofs.Ensures
import Wireform.Proofs.Layout.Built
import Wireform.Proofs.Wire.Varint

/-!
# How many bytes an encoding appends

`Writes least greatest x`: whatever the buffer, if `x` succeeds it has appended at least
`least` and at most `greatest` bytes, and if it fails the reason is not an empty slot.

* `Layout.least`, `Layout.greatest`: what the lengths of the parts say of the whole.
* `writes_encodeStep`: one level of a layout keeps to them.
-/

namespace Wireform

/-- Not the report that a slot is empty. -/
def Stop.Filled (stop : Stop CodecFailure) : Prop :=
  ∀ path slot, stop ≠ .failure ⟨path, .unresolved slot⟩

theorem Stop.Filled.within {step : PathStep} {failure : CodecFailure}
    (h : (Stop.failure failure).Filled) : (Stop.failure (failure.within step)).Filled := by
  intro path slot heq
  refine h failure.path slot ?_
  obtain ⟨path', cause⟩ := failure
  cases heq
  rfl

section Inside

variable {σ α : Type} {x : EStateM (Stop CodecFailure) σ α} {s t : σ} (step : PathStep)

/-- Being further in changes the path of an error, and no result. -/
theorem inside_ok_iff {a : α} : inside step x s = .ok a t ↔ x s = .ok a t := by
  unfold inside
  split
  · next heq => simp [heq]
  · exact Iff.rfl

theorem inside_of_failure {failure : CodecFailure} (h : x s = .error (.failure failure) t) :
    inside step x s = .error (.failure (failure.within step)) t := by
  unfold inside
  rw [h]

theorem Ensures.inside {post : α → σ → Prop} (h : Ensures s x post fun stop _ => stop.Filled) :
    Ensures s (Wireform.inside step x) post fun stop _ => stop.Filled := by
  unfold Ensures Wireform.inside at *
  cases hrun : x s with
  | ok a t =>
    rw [hrun] at h
    exact h
  | error stop t =>
    rw [hrun] at h
    cases stop with
    | failure failure => exact Stop.Filled.within h
    | outOfFuel => exact h

end Inside

/-- A result has so many bytes more than before; an error is not about an empty slot. -/
def Writes (least greatest : ℕ∞) (x : Encoding Unit) : Prop :=
  ∀ buffer, Ensures buffer x
    (fun _ after => ∃ n : ℕ, after.size = buffer.size + n ∧ least ≤ n ∧ (n : ℕ∞) ≤ greatest)
    fun stop _ => stop.Filled

/-- A result satisfies `post` and the buffer is the same; an error is not about an empty slot. -/
def Looks {σ α : Type} (x : EStateM (Stop CodecFailure) σ α) (post : α → Prop) : Prop :=
  ∀ s, Ensures s x (fun a t => t = s ∧ post a) fun stop _ => stop.Filled

namespace Looks

variable {σ α : Type} {post : α → Prop}

theorem pure {a : α} (h : post a) : Looks (σ := σ) (Pure.pure a) post := fun _ => ⟨rfl, h⟩

theorem fail {cause : CodecError} (h : ∀ slot, cause ≠ .unresolved slot) :
    Looks (σ := σ) (failWith (α := α) cause) post := by
  intro s path slot heq
  cases heq
  exact h slot rfl

theorem bind {β : Type} {x : EStateM (Stop CodecFailure) σ α}
    {f : α → EStateM (Stop CodecFailure) σ β} {post' : β → Prop} (hx : Looks x post)
    (hf : ∀ a, post a → Looks (f a) post') :
    Looks (x >>= f) post' := by
  intro s
  refine Ensures.bind (hx s) ?_
  rintro a _ ⟨rfl, ha⟩
  exact hf a ha _

end Looks

namespace Writes

variable {l l' g g' : ℕ∞} {x : Encoding Unit}

theorem mono (h : Writes l g x) (hl : l' ≤ l) (hg : g ≤ g') : Writes l' g' x := by
  intro buffer
  refine Ensures.mono (h buffer) ?_ fun _ _ hf => hf
  rintro _ after ⟨n, hn, hln, hgn⟩
  exact ⟨n, hn, hl.trans hln, hgn.trans hg⟩

theorem nothing : Writes 0 0 (pure ()) := fun _ => ⟨0, rfl, le_rfl, le_rfl⟩

theorem emit (bytes : List UInt8) : Writes bytes.length bytes.length (Wireform.emit bytes) := by
  intro buffer
  refine ⟨bytes.length, ?_, le_rfl, le_rfl⟩
  simp

theorem fail {cause : CodecError} (h : ∀ slot, cause ≠ .unresolved slot) :
    Writes l g (failWith cause) := by
  intro buffer path slot heq
  cases heq
  exact h slot rfl

/-- The lengths of two steps add up. -/
theorem andThen {y : Encoding Unit} (hx : Writes l g x) (hy : Writes l' g' y) :
    Writes (l + l') (g + g') (x >>= fun _ => y) := by
  intro buffer
  refine Ensures.bind (hx buffer) ?_
  rintro _ mid ⟨n, hn, hln, hgn⟩
  refine Ensures.mono (hy mid) ?_ fun _ _ hf => hf
  rintro _ after ⟨n', hn', hln', hgn'⟩
  refine ⟨n + n', by omega, ?_, ?_⟩
  · rw [Nat.cast_add]
    exact add_le_add hln hln'
  · rw [Nat.cast_add]
    exact add_le_add hgn hgn'

/-- A step that only looks at the value. -/
theorem look {α : Type} {y : Encoding α} {post : α → Prop} {f : α → Encoding Unit}
    (hy : Looks y post) (hf : ∀ a, post a → Writes l g (f a)) : Writes l g (y >>= f) := by
  intro buffer
  refine Ensures.bind (hy buffer) ?_
  rintro a _ ⟨rfl, ha⟩
  exact hf a ha _

theorem inside (step : PathStep) (h : Writes l g x) : Writes l g (Wireform.inside step x) :=
  fun buffer => (h buffer).inside step

end Writes

/-! ### Primitives -/

section Primitives

variable {σ : Type}

theorem looks_unsignedWord (type : String) (value : Json) :
    Looks (σ := σ) (Primitive.unsignedWord type value) fun _ => True := by
  unfold Primitive.unsignedWord
  split
  · split
    · exact Looks.pure trivial
    · exact Looks.fail (by simp)
  · exact Looks.fail (by simp)

theorem looks_signedWord (type : String) (value : Json) :
    Looks (σ := σ) (Primitive.signedWord type value) fun _ => True := by
  unfold Primitive.signedWord
  split
  · split
    · exact Looks.pure trivial
    · exact Looks.fail (by simp)
  · exact Looks.fail (by simp)

theorem looks_doubleOf (value : Json) :
    Looks (σ := σ) (Primitive.doubleOf value) fun _ => True := by
  cases value with
  | number n => exact Looks.pure trivial
  | _ => exact Looks.fail (by simp)

theorem looks_dateMillis (value : Json) : Looks (Primitive.dateMillis value) fun _ => True := by
  cases value with
  | string text =>
    simp only [Primitive.dateMillis]
    split
    · exact Looks.pure trivial
    · exact Looks.fail (by simp)
  | number n => exact looks_signedWord "Date" (.number n)
  | _ => exact Looks.fail (by simp)

end Primitives

/-- A text takes at least the byte of its length. -/
theorem writes_encodeText (encoding : TextEncoding) (text : String) :
    Writes 1 ⊤ (Primitive.encodeText encoding text) := by
  unfold Primitive.encodeText
  refine ((Writes.emit _).andThen (Writes.emit _)).mono ?_ le_top
  rw [Wire.length_uvarBytes]
  exact le_add_right (Nat.one_le_cast.2 (Wire.one_le_uvarLength _))

theorem writes_uvarBytes (value : ℕ) : Writes 1 9 (emit (Wire.uvarBytes value)) := by
  refine (Writes.emit _).mono ?_ ?_
  · rw [Wire.length_uvarBytes]
    exact Nat.one_le_cast.2 (Wire.one_le_uvarLength _)
  · rw [Wire.length_uvarBytes]
    exact Nat.cast_le.2 (Wire.uvarLength_le _)

/-- **A primitive keeps to its bounds.** -/
theorem writes_primitive (p : Primitive) (value : Json) :
    Writes p.minSize p.maxSize.value (p.encode value) := by
  cases p with
  | uint width order =>
    refine Writes.look (looks_unsignedWord _ value) fun word _ => ?_
    split
    · exact (Writes.emit _).mono (by simp [Primitive.minSize]) (by simp [Primitive.maxSize])
    · exact Writes.fail (by simp)
  | int width order =>
    refine Writes.look (looks_signedWord _ value) fun word _ => ?_
    dsimp only
    split
    · exact (Writes.emit _).mono (by simp [Primitive.minSize]) (by simp [Primitive.maxSize])
    · exact Writes.fail (by simp)
  | single order =>
    refine Writes.look (looks_doubleOf value) fun x _ => ?_
    exact (Writes.emit _).mono (by simp [Primitive.minSize]) (by simp [Primitive.maxSize])
  | double order =>
    refine Writes.look (looks_doubleOf value) fun x _ => ?_
    exact (Writes.emit _).mono (by simp [Primitive.minSize]) (by simp [Primitive.maxSize])
  | bool =>
    cases value with
    | bool b =>
      exact (Writes.emit _).mono (by simp [Primitive.minSize]) (by simp [Primitive.maxSize])
    | _ => exact Writes.fail (by simp)
  | uvar => exact Writes.look (looks_unsignedWord _ value) fun word _ => writes_uvarBytes _
  | ivar => exact Writes.look (looks_signedWord _ value) fun word _ => writes_uvarBytes _
  | string encoding =>
    cases value with
    | string text => exact writes_encodeText encoding text
    | _ => exact Writes.fail (by simp)
  | json => exact writes_encodeText .utf8 value.text
  | date =>
    refine Writes.look (looks_dateMillis value) fun millis _ => ?_
    exact (Writes.emit _).mono (by simp [Primitive.minSize]) (by simp [Primitive.maxSize])

/-! ### Layouts -/

namespace Codec

@[simp]
theorem length_bitmapBytes (count : ℕ) (bits : List Bool) :
    (bitmapBytes count bits).length = count := by
  induction count generalizing bits with
  | zero => rfl
  | succ count ih => simp [bitmapBytes, ih]

theorem looks_arrayItems {σ : Type} (value : Json) :
    Looks (σ := σ) (arrayItems value) fun items => value = .array items := by
  cases value with
  | array items => exact Looks.pure rfl
  | _ => exact Looks.fail (by simp)

theorem looks_objectMembers {σ : Type} (value : Json) :
    Looks (σ := σ) (objectMembers value) fun members => value = .object members := by
  cases value with
  | object members => exact Looks.pure rfl
  | _ => exact Looks.fail (by simp)

variable {encode : Encoder} {lower upper : TypeId → ℕ∞}

/-- The bounds of a type that is encoded inside a layout. -/
def Keeps (encode : Encoder) (lower upper : TypeId → ℕ∞) (id : TypeId) : Prop :=
  ∀ value, Writes (lower id) (upper id) (encode id value)

/-- What a field adds to the lower bound of its struct. -/
def fieldLeast (lower : TypeId → ℕ∞) (field : FieldLayout) : ℕ∞ :=
  match field.mandatory? with
  | some id => lower id
  | none => 0

theorem writes_encodeField (lower upper : TypeId → ℕ∞) (value : Json) (field : FieldLayout)
    (h : ∀ id, field.reference? = some id → Keeps encode lower upper id) :
    Writes (fieldLeast lower field) (field.bound upper) (encodeField encode value field) := by
  obtain ⟨place, content⟩ := field
  cases content with
  | constant type constant verify => exact Writes.inside _ (h type rfl constant)
  | literal constant => exact Writes.nothing
  | value type presence =>
    simp only [encodeField]
    split
    · exact Writes.inside _ (h type rfl _)
    · split
      · exact Writes.nothing.mono le_rfl zero_le
      · exact Writes.inside _ ((h type rfl _).mono zero_le le_rfl)
    · exact Writes.nothing.mono le_rfl zero_le
    · exact Writes.fail (by simp)

theorem writes_encodeFields (value : Json) (fields : List FieldLayout)
    (h : ∀ id ∈ fields.filterMap FieldLayout.reference?, Keeps encode lower upper id) :
    Writes ((fields.filterMap FieldLayout.mandatory?).map lower).sum
      (fields.map (FieldLayout.bound upper)).sum (fields.forM (encodeField encode value)) := by
  induction fields with
  | nil => exact Writes.nothing
  | cons field rest ih =>
    have hfield := writes_encodeField lower upper value field
      fun id hid => h id (List.mem_filterMap.2 ⟨field, List.mem_cons_self, hid⟩)
    have hrest := ih fun id hid => by
      obtain ⟨other, ho, hid⟩ := List.mem_filterMap.1 hid
      exact h id (List.mem_filterMap.2 ⟨other, List.mem_cons_of_mem _ ho, hid⟩)
    refine (hfield.andThen hrest).mono ?_ (by rw [List.map_cons, List.sum_cons])
    -- a field that may be left out adds nothing to the lower bound
    unfold fieldLeast
    cases hm : field.mandatory? with
    | none => rw [List.filterMap_cons_none hm, zero_add]
    | some id => rw [List.filterMap_cons_some hm, List.map_cons, List.sum_cons]

theorem looks_checkShape (shape : StructShape) (value : Json) :
    Looks (checkShape shape value) fun _ => True := by
  cases shape with
  | object => exact (looks_objectMembers value).bind fun _ _ => Looks.pure trivial
  | tuple => exact (looks_arrayItems value).bind fun _ _ => Looks.pure trivial
  | empty => exact Looks.pure trivial

theorem writes_encodeStruct (s : StructLayout) (value : Json) (hs : s.Numbered)
    (h : ∀ id ∈ (Layout.struct s).references, Keeps encode lower upper id) :
    Writes ((Layout.struct s).least lower) ((Layout.struct s).bound upper)
      (encodeStruct encode s value) := by
  unfold encodeStruct
  refine Writes.look (looks_checkShape s.shape value) fun _ _ => ?_
  split
  · next hempty =>
    -- nothing is written, and there are no fields to account for
    obtain ⟨hfields, hbitmap⟩ := hs.empty hempty
    refine Writes.nothing.mono ?_ zero_le
    simp [Layout.least, hfields, hbitmap]
  · have hfields := writes_encodeFields value s.fields h
    have hbitmap := Writes.emit (bitmapBytes s.bitmapBytes (presenceBits s value))
    rw [length_bitmapBytes] at hbitmap
    refine (hbitmap.andThen hfields).mono le_rfl ?_
    rw [Layout.bound, add_comm]

theorem writes_encodeItems {l g : ℕ∞} {item : Json → Encoding Unit}
    (h : ∀ value, Writes l g (item value)) (position : ℕ) (items : List Json) :
    Writes (items.length * l) (items.length * g) (encodeItems item position items) := by
  induction items generalizing position with
  | nil => exact Writes.nothing.mono (by simp) (by simp)
  | cons value rest ih =>
    refine ((Writes.inside _ (h value)).andThen (ih (position + 1))).mono ?_ ?_
    all_goals
      rw [List.length_cons, Nat.cast_add, Nat.cast_one, add_mul, one_mul, add_comm]

theorem looks_checkLength (expected : ℕ) (items : List Json) :
    Looks (checkLength expected items) fun _ => items.length = expected := by
  unfold checkLength
  split
  · next h => exact Looks.pure h
  · exact Looks.fail (by simp)

theorem looks_checkLimit {σ : Type} (limit : Option ℕ) (count : ℕ) :
    Looks (σ := σ) (checkLimit limit count) fun _ => ∀ greatest, limit = some greatest →
      count ≤ greatest := by
  cases limit with
  | none => exact Looks.pure (by simp)
  | some greatest =>
    simp only [checkLimit]
    split
    · exact Looks.fail (by simp)
    · next h => exact Looks.pure (by simpa using h)

theorem writes_encodeArray (a : ArrayLayout) (value : Json)
    (h : ∀ value, Writes (lower a.element) (upper a.element) (elementEncoder encode a value)) :
    Writes ((Layout.array a).least lower) ((Layout.array a).bound upper)
      (encodeArray encode a value) := by
  unfold encodeArray
  refine Writes.look (looks_arrayItems value) fun items _ => ?_
  refine Writes.look (looks_checkLength a.size items) fun _ hlength => ?_
  have hbitmap := Writes.emit (arrayBitmap a items)
  -- an element that may be `null` may have no bytes
  have hitem : ∀ item, Writes (if a.nullable then 0 else lower a.element) (upper a.element)
      (encodeElement encode a item) := by
    intro item
    unfold encodeElement
    by_cases hnull : (a.nullable && item.isNull) = true
    · have hnullable : a.nullable = true := (Bool.and_eq_true_iff.1 hnull).1
      rw [if_pos hnullable, if_pos hnull]
      exact Writes.nothing.mono le_rfl zero_le
    · rw [if_neg hnull]
      refine (h item).mono ?_ le_rfl
      split
      · exact zero_le
      · exact le_rfl
  refine (hbitmap.andThen (writes_encodeItems hitem 0 items)).mono ?_ ?_
  · rw [hlength]
    simp only [Layout.least, arrayBitmap]
    split <;> simp
  · rw [hlength, add_comm]
    simp only [Layout.bound, arrayBitmap]
    split <;> simp

theorem writes_encodeList (element : TypeId) (maxLength : Option ℕ) (value : Json)
    (h : Keeps encode lower upper element) :
    Writes ((Layout.list element maxLength).least lower)
      ((Layout.list element maxLength).bound upper)
      (encodeList encode element maxLength value) := by
  unfold encodeList
  refine Writes.look (looks_arrayItems value) fun items _ => ?_
  refine Writes.look (looks_checkLimit maxLength items.length) fun _ hlimit => ?_
  have hcount := Writes.emit (Wire.uvarBytes items.length)
  rw [Wire.length_uvarBytes] at hcount
  refine (hcount.andThen (writes_encodeItems h 0 items)).mono ?_ ?_
  · exact le_add_right (Nat.one_le_cast.2 (Wire.one_le_uvarLength _))
  · cases maxLength with
    | none => exact le_top
    | some greatest =>
      have hle := hlimit greatest rfl
      -- the count of a shorter list is no longer
      have hlength := Wire.uvarLength_mono hle
      simp only [Layout.bound]
      gcongr

theorem writes_encodeBytes (count : ℕ) (value : Json) :
    Writes count count (encodeBytes count value) := by
  unfold encodeBytes
  refine Writes.look (looks_arrayItems value) fun items _ => ?_
  refine Writes.look (looks_checkLength count items) fun _ hlength => ?_
  have hbyte : ∀ item, Writes 1 1 (encodeByte item) := by
    intro item
    refine Writes.look (looks_unsignedWord _ item) fun word _ => ?_
    split
    · exact (Writes.emit _).mono (by simp) (by simp)
    · exact Writes.fail (by simp)
  refine (writes_encodeItems hbyte 0 items).mono ?_ ?_
  all_goals rw [hlength, mul_one]

/-- The value and the zeros behind it fill the space exactly. -/
theorem writes_encodePadded (inner : TypeId) (size : ℕ) (value : Json)
    (h : Keeps encode lower upper inner) :
    Writes size size (encodePadded encode inner size value) := by
  intro buffer
  unfold encodePadded
  -- the buffers before and after the value are compared
  refine Ensures.bind (p := fun start after => after = buffer ∧ start = buffer) ⟨rfl, rfl⟩ ?_
  rintro _ _ ⟨rfl, rfl⟩
  refine Ensures.bind (h value _) ?_
  rintro _ after ⟨n, hn, -, -⟩
  refine Ensures.bind (p := fun now after' => after' = after ∧ now = after) ⟨rfl, rfl⟩ ?_
  rintro _ _ ⟨rfl, rfl⟩
  dsimp only
  split
  · intro path slot heq
    cases heq
  · next hle =>
    refine ⟨size, ?_, le_rfl, le_rfl⟩
    simp
    omega

theorem looks_discriminant (e : EnumLayout) (value : Json) :
    Looks (discriminant e value) fun _ => True := by
  unfold discriminant
  cases e.shape with
  | object =>
    refine (looks_objectMembers value).bind fun members _ => ?_
    split
    · exact Looks.pure trivial
    · exact Looks.fail (by simp)
  | tuple =>
    refine (looks_arrayItems value).bind fun items _ => ?_
    split
    · exact Looks.pure trivial
    · exact Looks.fail (by simp)

theorem writes_encodeEnum (e : EnumLayout) (value : Json)
    (h : ∀ id ∈ (Layout.enum e).references, Keeps encode lower upper id) :
    Writes ((Layout.enum e).least lower) ((Layout.enum e).bound upper)
      (encodeEnum encode e value) := by
  unfold encodeEnum
  refine Writes.look (looks_discriminant e value) fun found _ => ?_
  split
  · exact Writes.fail (by simp)
  · next variant hfind =>
    have hmem := List.mem_of_find?_eq_some hfind
    have htag := h e.tag List.mem_cons_self variant.tag
    have hpayload := h variant.payload (List.mem_cons_of_mem _ (List.mem_map_of_mem hmem))
      (payloadOf e.shape variant value)
    refine (htag.andThen (Writes.inside _ hpayload)).mono ?_ ?_
    · exact add_le_add le_rfl (leastPayload_le lower hmem)
    · exact add_le_add le_rfl (le_payloadBound upper hmem)

/-- **One level of a layout keeps to its bounds if its parts do.** -/
theorem writes_encodeStep (lower upper : TypeId → ℕ∞) (layout : Layout) (value : Json)
    (hs : ∀ s, layout = .struct s → s.Numbered)
    (h : ∀ id ∈ layout.references, Keeps encode lower upper id)
    (hnumeric : ∀ a p, layout = .array a → a.numeric = some p →
      ∀ value, Writes (lower a.element) (upper a.element) (p.encode value)) :
    Writes (layout.least lower) (layout.bound upper) (encodeStep encode layout value) := by
  cases layout with
  | primitive p => exact writes_primitive p value
  | struct s => exact writes_encodeStruct s value (hs s rfl) h
  | array a =>
    refine writes_encodeArray a value fun item => ?_
    unfold elementEncoder
    cases hp : a.numeric with
    | some p => exact hnumeric a p rfl hp item
    | none => exact h a.element (List.mem_singleton_self _) item
  | enum e => exact writes_encodeEnum e value h
  | synonym target => exact h target (List.mem_singleton_self _) value
  | list element maxLength =>
    exact writes_encodeList element maxLength value (h element (List.mem_singleton_self _))
  | padded inner size =>
    exact writes_encodePadded inner size value (h inner (List.mem_singleton_self _))
  | bytes count => exact writes_encodeBytes count value

end Codec

end Wireform
