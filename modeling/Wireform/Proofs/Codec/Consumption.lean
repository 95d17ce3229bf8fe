import Mathlib.Algebra.BigOperators.Group.List.Basic
import Wireform.Proofs.Codec.DecodeLevels

/-!
# What decoding takes, and that it looks at nothing else

A list or an array looks ahead: it compares the room that its elements need at least with
all the input there is. That comparison can be left out of account, because an element that
is read takes no fewer bytes than its type is said to need: where the elements fit, the
bytes that they take pass the comparison on their own.

* `consumes_decodeStep`: one level of a layout takes at least what its parts add up to.
* `Arena.Grounded.takes_decode`: **decoding takes a front of the input and looks at nothing else**.
-/

namespace Wireform

/-- Reading that takes at least so many bytes off the front and looks at nothing else. -/
def Consumes {ε α : Type} (lower : ℕ∞) (x : EStateM ε Cursor α) : Prop :=
  ∀ c a after, x c = .ok a after →
    ∃ taken, c.rest = taken ++ after.rest ∧ lower ≤ taken.length ∧ Yields x taken a

theorem Takes.consumes {ε α : Type} {x : EStateM ε Cursor α} (h : Takes x) : Consumes 0 x := by
  intro c a after hrun
  obtain ⟨taken, hrest, hyields⟩ := h c a after hrun
  exact ⟨taken, hrest, zero_le, hyields⟩

namespace Consumes

variable {ε α β : Type} {x : EStateM ε Cursor α} {lower lower' : ℕ∞}

theorem takes (h : Consumes lower x) : Takes x := by
  intro c a after hrun
  obtain ⟨taken, hrest, -, hyields⟩ := h c a after hrun
  exact ⟨taken, hrest, hyields⟩

theorem mono (h : Consumes lower x) (hle : lower' ≤ lower) : Consumes lower' x := by
  intro c a after hrun
  obtain ⟨taken, hrest, hlower, hyields⟩ := h c a after hrun
  exact ⟨taken, hrest, hle.trans hlower, hyields⟩

theorem pure (a : α) : Consumes 0 (Pure.pure a : EStateM ε Cursor α) := (Takes.pure a).consumes

/-- What fails has never taken too little. -/
theorem fail (cause : CodecError) : Consumes lower (failWith (α := α) cause) := by
  intro c a after hrun
  cases hrun

theorem bind {f : α → EStateM ε Cursor β} (hx : Consumes lower x)
    (hf : ∀ a, Consumes lower' (f a)) :
    Consumes (lower + lower') (x >>= f) := by
  intro c b after hrun
  obtain ⟨a, mid, hfirst, hlast⟩ := exists_of_bind_ok hrun
  obtain ⟨taken, hrest, hlower, hx⟩ := hx c a mid hfirst
  obtain ⟨taken', hrest', hlower', hf⟩ := hf a mid b after hlast
  refine ⟨taken ++ taken', by rw [hrest, hrest', List.append_assoc], ?_, hx.bind hf⟩
  rw [List.length_append, Nat.cast_add]
  exact add_le_add hlower hlower'

/-- After the last bytes a step that may take none. -/
theorem last {f : α → EStateM ε Cursor β} (hx : Consumes lower x) (hf : ∀ a, Consumes 0 (f a)) :
    Consumes lower (x >>= f) := by
  have h := hx.bind hf
  rwa [add_zero] at h

theorem read {x : Reading α} (h : Consumes lower x) : Consumes lower (Wireform.read x) := by
  intro c a after hrun
  obtain ⟨taken, hrest, hlower, hyields⟩ := h c a after (read_ok_iff.1 hrun)
  exact ⟨taken, hrest, hlower, hyields.read⟩

theorem inside {x : Decoding α} (step : PathStep) (h : Consumes lower x) :
    Consumes lower (Wireform.inside step x) := by
  intro c a after hrun
  obtain ⟨taken, hrest, hlower, hyields⟩ := h c a after ((inside_ok_iff step).1 hrun)
  exact ⟨taken, hrest, hlower, hyields.inside step⟩

end Consumes

/-! ### Bytes -/

theorem consumes_take (count : ℕ) : Consumes count (Cursor.take count) := by
  intro c bytes after hrun
  obtain ⟨hrest, rfl⟩ := take_ok hrun
  exact ⟨bytes, hrest, le_rfl, Yields.take bytes⟩

theorem consumes_byte : Consumes 1 Cursor.byte := by
  intro c first after hrun
  unfold Cursor.byte at hrun
  split at hrun
  · next first rest hrest =>
    cases hrun
    exact ⟨[first], hrest, le_rfl, fun _ _ => rfl⟩
  · cases hrun

theorem consumes_uint (order : ByteOrder) (width : ℕ) : Consumes width (Cursor.uint order width) :=
  (consumes_take width).last fun _ => Consumes.pure _

theorem consumes_int (order : ByteOrder) (width : ℕ) : Consumes width (Cursor.int order width) :=
  (consumes_take width).last fun _ => Consumes.pure _

theorem consumes_uvar : Consumes 1 Cursor.uvar := by
  refine consumes_byte.last fun first => Takes.consumes ?_
  dsimp only
  split
  · exact takes_uint _ _
  · exact (takes_uint _ _).bind fun _ => Takes.pure _

theorem consumes_decodeText (encoding : TextEncoding) :
    Consumes 1 (Primitive.decodeText encoding) := by
  refine consumes_uvar.read.last fun length => Takes.consumes ?_
  refine (takes_take length).read.bind fun bytes => ?_
  split
  · exact Takes.pure _
  · exact Takes.fail _

/-- A primitive takes at least the fewest bytes that its values have. -/
theorem consumes_primitive (p : Primitive) : Consumes p.minSize p.decode := by
  cases p with
  | uint width order | single order | double order =>
    exact (consumes_uint _ _).read.last fun _ => Consumes.pure _
  | int width order => exact (consumes_int _ _).read.last fun _ => Consumes.pure _
  | bool => exact consumes_byte.read.last fun _ => Consumes.pure _
  | uvar | ivar => exact consumes_uvar.read.last fun _ => Consumes.pure _
  | string encoding => exact (consumes_decodeText encoding).last fun _ => Consumes.pure _
  | json =>
    refine (consumes_decodeText .utf8).last fun text => ?_
    split
    · exact Consumes.pure _
    · exact Consumes.fail _
  | date =>
    refine (consumes_int _ _).read.last fun millis => ?_
    split
    · exact Consumes.pure _
    · exact Consumes.fail _

/-! ### Layouts -/

namespace Codec

variable {decode : Decoder} {minSize : TypeId → ℕ} {lower : TypeId → ℕ∞}

theorem consumes_decodeField (h : ∀ id, Consumes (lower id) (decode id)) (bits : List Bool)
    (field : FieldLayout) :
    Consumes ((field.mandatory?.map lower).getD 0) (decodeField decode bits field) := by
  obtain ⟨place, content⟩ := field
  cases content with
  | constant type constant verify =>
    refine ((h type).inside _).last fun found => ?_
    dsimp only
    split
    · exact Consumes.fail _
    · exact Consumes.pure _
  | literal value => exact Consumes.pure _
  | value type presence =>
    cases presence with
    | none => exact ((h type).inside _).last fun _ => Consumes.pure _
    | some bit =>
      simp only [decodeField]
      split
      · exact Takes.consumes (((h type).inside _).takes.bind fun _ => Takes.pure _)
      · exact Consumes.pure _

theorem consumes_decodeFields (h : ∀ id, Consumes (lower id) (decode id)) (bits : List Bool)
    (fields : List FieldLayout) (g : Gathered) :
    Consumes ((fields.filterMap FieldLayout.mandatory?).map lower).sum
      (decodeFields decode bits g fields) := by
  induction fields generalizing g with
  | nil => exact Consumes.pure _
  | cons field rest ih =>
    have hsplit : (((field :: rest).filterMap FieldLayout.mandatory?).map lower).sum =
        (field.mandatory?.map lower).getD 0 +
        ((rest.filterMap FieldLayout.mandatory?).map lower).sum := by
      rw [List.filterMap_cons]
      cases field.mandatory? <;> simp
    rw [hsplit]
    exact (consumes_decodeField h bits field).bind fun value => ih _

theorem consumes_decodeStruct (h : ∀ id, Consumes (lower id) (decode id)) (s : StructLayout) :
    Consumes ((Layout.struct s).least lower) (decodeStruct decode s) := by
  refine (consumes_take s.bitmapBytes).read.bind fun bitmap => ?_
  refine (consumes_decodeFields h _ s.fields _).last fun g => ?_
  split <;> exact Consumes.pure _

/-- Elements that take at least the room that is asked for pass the check wherever they are read. -/
theorem consumes_checkRoom {α : Type} {count least : ℕ} {room : ℕ∞}
    (hroom : (count * least : ℕ) ≤ room) {y : Unit → Decoding α} (h : Consumes room (y ())) :
    Consumes room (checkRoom count least >>= y) := by
  intro c a after hrun
  obtain ⟨_, mid, hcheck, hlast⟩ := exists_of_bind_ok hrun
  rw [checkRoom_eq] at hcheck
  split at hcheck
  · cases hcheck
  · cases hcheck
    obtain ⟨taken, hrest, hlower, hyields⟩ := h c a after hlast
    exact ⟨taken, hrest, hlower, yields_checkRoom (Nat.cast_le.1 (hroom.trans hlower)) hyields⟩

theorem consumes_decodeItems {item : ℕ → Decoding Json} {least : ℕ → ℕ∞}
    (h : ∀ position, Consumes (least position) (item position)) (count position : ℕ)
    (before : List Json) :
    Consumes ((List.range' position count).map least).sum
      (decodeItems item count position before) := by
  induction count generalizing position before with
  | zero => exact Consumes.pure _
  | succ count ih =>
    rw [List.range'_succ, List.map_cons, List.sum_cons]
    exact ((h position).inside _).bind fun value => ih _ _

/-- Among enough positions there are as many elements as there are bits that are set. -/
theorem count_mul_le (least : ℕ∞) {bits : List Bool} {size : ℕ} (hsize : bits.length ≤ size) :
    bits.count true * least ≤
      ((List.range size).map fun position => if isSet bits position then least else 0).sum := by
  induction bits generalizing size with
  | nil => simp
  | cons bit rest ih =>
    obtain ⟨size, rfl⟩ : ∃ n, size = n + 1 := ⟨size - 1, by simp at hsize; omega⟩
    have hrest := ih (Nat.le_of_succ_le_succ hsize)
    -- behind the first bit the positions are one higher
    rw [List.range_succ_eq_map, List.map_cons, List.sum_cons, List.map_map]
    cases bit with
    | false =>
      rw [List.count_cons_of_ne (by decide)]
      exact hrest.trans le_add_self
    | true =>
      rw [List.count_cons_self, Nat.cast_add, Nat.cast_one, add_mul, one_mul, add_comm]
      exact add_le_add le_rfl hrest

/-- What is read of the elements of an array covers those that are there. -/
theorem presentCount_mul_le (least : ℕ∞) {a : ArrayLayout} {bits : Option (List Bool)}
    (hsize : ∀ found, bits = some found → found.length ≤ a.size) :
    presentCount a bits * least ≤ ((List.range a.size).map fun position =>
      if bits.all (isSet · position) then least else 0).sum := by
  cases bits with
  | some bits => exact count_mul_le least (hsize bits rfl)
  | none => simp [presentCount]

theorem consumes_elementDecoder (h : ∀ id, Consumes (lower id) (decode id)) {a : ArrayLayout}
    (hnumeric : ∀ p, a.numeric = some p → lower a.element = p.minSize) :
    Consumes (lower a.element) (elementDecoder decode a) := by
  unfold elementDecoder
  cases hp : a.numeric with
  | some p =>
    rw [hnumeric p hp]
    exact consumes_primitive p
  | none => exact h a.element

theorem elementMin_le (hmin : ∀ id, minSize id ≤ lower id) {a : ArrayLayout}
    (hnumeric : ∀ p, a.numeric = some p → lower a.element = p.minSize) :
    elementMin minSize a ≤ lower a.element := by
  unfold elementMin
  cases hp : a.numeric with
  | some p => exact (hnumeric p hp).ge
  | none => exact hmin a.element

/-- The elements of an array that are there take their least length each. -/
theorem consumes_present (h : ∀ id, Consumes (lower id) (decode id)) {a : ArrayLayout}
    (hnumeric : ∀ p, a.numeric = some p → lower a.element = p.minSize)
    {bits : Option (List Bool)} (hsize : ∀ found, bits = some found → found.length ≤ a.size) :
    Consumes (presentCount a bits * lower a.element)
      (decodeItems (decodeElement decode a bits) a.size 0 [] >>=
        fun items => pure (Json.array items)) := by
  have helement : ∀ position, Consumes (if bits.all (isSet · position) then lower a.element else 0)
      (decodeElement decode a bits position) := by
    intro position
    unfold decodeElement
    split
    · exact consumes_elementDecoder h hnumeric
    · exact Consumes.pure _
  have hitems := consumes_decodeItems helement a.size 0 []
  rw [← List.range_eq_range'] at hitems
  exact (hitems.mono (presentCount_mul_le _ hsize)).last fun items => Consumes.pure _

/-- Behind its bitmap an array takes the elements that are there, each at its least length. -/
theorem consumes_elements (h : ∀ id, Consumes (lower id) (decode id))
    (hmin : ∀ id, minSize id ≤ lower id) {a : ArrayLayout}
    (hnumeric : ∀ p, a.numeric = some p → lower a.element = p.minSize) {bits : Option (List Bool)}
    (hsize : ∀ found, bits = some found → found.length ≤ a.size) :
    Consumes (presentCount a bits * lower a.element) (do
      checkRoom (presentCount a bits) (elementMin minSize a)
      return Json.array (← decodeItems (decodeElement decode a bits) a.size 0 [])) := by
  refine consumes_checkRoom ?_ (consumes_present h hnumeric hsize)
  rw [Nat.cast_mul]
  gcongr
  exact elementMin_le hmin hnumeric

/-- There are no more bits than elements. -/
theorem length_decodeBits {a : ArrayLayout} {bits : Option (List Bool)} {c after : Cursor}
    (hrun : decodeBits a c = .ok bits after) :
    ∀ found, bits = some found → found.length ≤ a.size := by
  unfold decodeBits at hrun
  split at hrun
  · obtain ⟨bitmap, mid, -, hlast⟩ := exists_of_bind_ok hrun
    cases hlast
    rintro found hfound
    obtain rfl := Option.some.inj hfound
    exact List.length_take_le _ _
  · cases hrun
    exact fun found hfound => nomatch hfound

theorem consumes_decodeArray (h : ∀ id, Consumes (lower id) (decode id))
    (hmin : ∀ id, minSize id ≤ lower id) (a : ArrayLayout)
    (hnumeric : ∀ p, a.numeric = some p → lower a.element = p.minSize) :
    Consumes ((Layout.array a).least lower) (decodeArray decode minSize a) := by
  unfold decodeArray decodeBits
  cases ha : a.nullable with
  | false =>
    simp only [Layout.least, ha, Bool.false_eq_true, if_false, pure_bind]
    exact consumes_elements h hmin hnumeric
      fun bits heq => absurd heq.symm (Option.some_ne_none bits)
  | true =>
    simp only [Layout.least, ha, if_true, bind_assoc, pure_bind]
    refine (consumes_take (bitmapLength a.size)).read.last fun bitmap => ?_
    refine (consumes_elements h hmin hnumeric fun found heq => ?_).mono zero_le
    obtain rfl := Option.some.inj heq
    exact List.length_take_le _ _

theorem takes_checkLimit (limit : Option ℕ) (count : ℕ) :
    Takes (checkLimit (σ := Cursor) limit count) := by
  unfold checkLimit
  split
  · split
    · exact Takes.fail _
    · exact Takes.pure _
  · exact Takes.pure _

/-- The elements of a list take their least length each. -/
theorem consumes_listItems (h : ∀ id, Consumes (lower id) (decode id))
    (element : TypeId) (count : ℕ) :
    Consumes (count * lower element)
      (decodeItems (fun _ => decode element) count 0 [] >>=
        fun items => pure (Json.array items)) := by
  have hitems := consumes_decodeItems (fun _ => h element) count 0 []
  rw [List.map_const', List.sum_replicate, List.length_range', nsmul_eq_mul] at hitems
  exact hitems.last fun items => Consumes.pure _

theorem consumes_decodeList (h : ∀ id, Consumes (lower id) (decode id))
    (hmin : ∀ id, minSize id ≤ lower id) (element : TypeId) (maxLength : Option ℕ) :
    Consumes 1 (decodeList decode minSize element maxLength) := by
  refine consumes_uvar.read.last fun count => ?_
  have hitems := consumes_listItems h element count
  refine Takes.consumes ((takes_checkLimit maxLength count).bind fun _ => ?_)
  unfold checkItems
  split
  · exact (takes_checkLimit _ count).bind fun _ => hitems.takes
  · refine (consumes_checkRoom ?_ hitems).takes
    rw [Nat.cast_mul]
    gcongr
    exact hmin element

/-- What follows the window is not looked at, and neither is what the value leaves of it. -/
theorem consumes_decodePadded (decode : Decoder) (inner : TypeId) (size : ℕ) :
    Consumes size (decodePadded decode inner size) := by
  refine (consumes_take size).read.last fun window => ?_
  refine Takes.consumes fun c a after hrun => ?_
  refine ⟨[], ?_, fun rest offset => ?_⟩
  all_goals
    cases hinner : decode inner (Cursor.ofBytes window) with
    | ok value after' =>
      simp only [hinner] at hrun
      cases hrun
      rfl
    | error stop after' =>
      simp only [hinner] at hrun
      cases hrun

theorem consumes_decodeEnum (h : ∀ id, Consumes (lower id) (decode id)) (e : EnumLayout) :
    Consumes ((Layout.enum e).least lower) (decodeEnum decode e) := by
  refine (h e.tag).bind fun tag => ?_
  split
  · exact Consumes.fail _
  · next variant hfind =>
    have hpayload := ((h variant.payload).inside (.variant variant.name)).mono
      (leastPayload_le lower (List.mem_of_find?_eq_some hfind))
    refine hpayload.last fun payload => ?_
    split
    · exact Consumes.pure _
    · exact Consumes.fail _

/-- **One level of a layout.** -/
theorem consumes_decodeStep (h : ∀ id, Consumes (lower id) (decode id))
    (hmin : ∀ id, minSize id ≤ lower id) (layout : Layout)
    (hnumeric : ∀ a p, layout = .array a → a.numeric = some p → lower a.element = p.minSize) :
    Consumes (layout.least lower) (decodeStep decode minSize layout) := by
  cases layout with
  | primitive p => exact consumes_primitive p
  | struct s => exact consumes_decodeStruct h s
  | array a => exact consumes_decodeArray h hmin a fun p hp => hnumeric a p rfl hp
  | enum e => exact consumes_decodeEnum h e
  | synonym target => exact h target
  | list element maxLength => exact consumes_decodeList h hmin element maxLength
  | padded inner size => exact consumes_decodePadded decode inner size
  | bytes count => exact (consumes_take count).read.last fun _ => Consumes.pure _

end Codec

namespace Arena

variable {arena : Arena}

/-- A type that carries a primitive has its least length. -/
theorem Carries.least {id : TypeId} {p : Primitive} (h : arena.Carries id p) :
    arena.least id = p.minSize := by
  induction h with
  | primitive hid hl => rw [least_eq hid, hl, Layout.least]
  | synonym hid hl _ ih => rw [least_eq hid, hl, Layout.least, ih]

namespace Grounded

variable (h : arena.Grounded)

include h

/-- Any type, at any number of levels, takes at least its least length. -/
theorem consumes (levels : ℕ) (id : TypeId) :
    Consumes (arena.least id) (arena.decodeWithin levels id) := by
  induction levels generalizing id with
  | zero => exact fun _ _ _ heq => nomatch heq
  | succ levels ih =>
    intro c a after hrun
    obtain ⟨type, hid⟩ := exists_of_decodeWithin hrun
    have hstep := Codec.consumes_decodeStep ih minSize_le_least type.layout fun a p ha hp =>
      ((h.builds id type hid).numeric a p ha hp).least
    rw [← least_eq hid, ← decodeWithin_succ hid] at hstep
    exact hstep c a after hrun

/-- **Decoding takes a front of the input and looks at nothing else.** -/
theorem takes_decode (id : TypeId) : Takes (arena.decode id) := by
  intro c a after hrun
  obtain ⟨taken, hrest, -, hyields⟩ := h.consumes _ id c a after hrun
  refine ⟨taken, hrest, fun rest offset => ?_⟩
  -- the levels that were enough here are those of `decode` for any other input
  obtain ⟨taken', hrest', -, hdecode⟩ := (rereads_decode _ id).of_ok trivial (hyields rest offset)
  obtain rfl : taken = taken' := List.append_cancel_right hrest'
  exact hdecode offset

end Grounded

end Arena

end Wireform
