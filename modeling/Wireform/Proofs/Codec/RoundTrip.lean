import Wireform.Proofs.Codec.Bitmap
import Wireform.Proofs.Codec.DecodeLevels
import Wireform.Proofs.Primitive.RoundTrip

/-!
# Values come back

What is written from a value is read as its form. Each kind of layout passes this on from
its parts: bits are found under the numbers that the compiler gave to them, items under
their positions, and members that a payload does not declare are passed over.

* `trips_stepForm`: one level of a layout.
* `Arena.Grounded.trips`: any type of an arena.
-/

namespace Wireform

/-- What `x` appends is read by `y` as a value, whatever bytes follow. -/
def Trips (x : Encoding Unit) (y : Decoding Json) (form : Json) : Prop :=
  ∃ bytes, Emits x bytes ∧ Yields y bytes form

namespace Codec

/-- Values of all types come back as their forms. -/
def AllTrip (forms : Forms) (encode : Encoder) (decode : Decoder) : Prop :=
  ∀ id value form, forms id value form → Trips (encode id value) (decode id) form

variable {forms : Forms} {encode : Encoder} {decode : Decoder} {minSize : TypeId → ℕ}

/-! ### Structs -/

/-- A constant is written, read and compared, and gives nothing. -/
theorem trips_constant (h : AllTrip forms encode decode) {type : TypeId} {constant : Json}
    {verify : Bool} (hform : ConstantForm forms type constant verify) (place : FieldPlace)
    (value : Json) (bits : List Bool) : ∃ bytes,
    Emits (encodeField encode value ⟨place, .constant type constant verify⟩) bytes ∧
      Yields (decodeField decode bits ⟨place, .constant type constant verify⟩) bytes none := by
  obtain ⟨form, hconstant, hverify⟩ := hform
  obtain ⟨bytes, hemits, hyields⟩ := h type constant form hconstant
  refine ⟨bytes, hemits.inside _, (hyields.inside _).last ?_⟩
  have hagrees : ¬(verify && !form.agree constant) = true := by
    cases verify with
    | false => simp
    | true => simp [hverify rfl]
  dsimp only
  rw [if_neg hagrees]
  exact Yields.pure none

/-- A field with a place in the value gives what its content says. -/
theorem trips_content (h : AllTrip forms encode decode) {content : FieldContent}
    {place : FieldPlace} {value form : Json}
    (hform : ContentForm forms content (valueAt? value place) form) {bits : List Bool}
    (hbit : ∀ type bit, content = .value type (some bit) →
      isSet bits bit = isPresent (valueAt? value place)) :
    ∃ bytes, Emits (encodeField encode value ⟨place, content⟩) bytes ∧
      Yields (decodeField decode bits ⟨place, content⟩) bytes (some form) := by
  cases content with
  | constant => exact absurd hform id
  | literal literal =>
    obtain rfl : form = literal := hform
    exact ⟨[], Emits.nothing, Yields.pure _⟩
  | value type presence =>
    cases presence with
    | none =>
      obtain ⟨found, hfound, hpart⟩ := hform
      obtain ⟨bytes, hemits, hyields⟩ := h type found form hpart
      refine ⟨bytes, ?_, (hyields.inside _).last (Yields.pure _)⟩
      simp only [encodeField, hfound]
      exact hemits.inside _
    | some bit =>
      -- the bit that is read tells what the writer has seen
      have hset := hbit type bit rfl
      simp only [ContentForm] at hform
      simp only [encodeField, decodeField, hset]
      split at hform
      · next hpresent =>
        obtain ⟨found, hfound, hpart⟩ := hform
        obtain ⟨bytes, hemits, hyields⟩ := h type found form hpart
        have hnull : found.isNull = false := by
          rw [hfound] at hpresent
          simpa [isPresent] using hpresent
        refine ⟨bytes, ?_, ?_⟩
        · simp only [hfound, hnull]
          exact hemits.inside _
        · rw [if_pos hpresent]
          exact (hyields.inside _).last (Yields.pure _)
      · next habsent =>
        rw [hform]
        refine ⟨[], ?_, ?_⟩
        · cases hfound : valueAt? value place with
          | none => exact Emits.nothing
          | some found =>
            have hnull : found.isNull = true := by
              rw [hfound] at habsent
              simpa [isPresent] using habsent
            simp only [hnull]
            exact Emits.nothing
        · rw [if_neg habsent]
          exact Yields.pure _

/-- The bits that are read tell which fields are there. -/
def BitsMatch (bits : List Bool) (fields : List FieldLayout) (value : Json) : Prop :=
  ∀ field ∈ fields, ∀ bit, field.bit? = some bit →
    isSet bits bit = isPresent (valueAt? value field.place)

/-- The bit of the first field, and those of the others. -/
theorem BitsMatch.cons {bits : List Bool} {place : FieldPlace} {content : FieldContent}
    {fields : List FieldLayout} {value : Json}
    (h : BitsMatch bits (⟨place, content⟩ :: fields) value) :
    (∀ type bit, content = .value type (some bit) →
      isSet bits bit = isPresent (valueAt? value place)) ∧ BitsMatch bits fields value := by
  refine ⟨?_, fun field hfield => h field (List.mem_cons_of_mem _ hfield)⟩
  rintro type bit rfl
  exact h _ List.mem_cons_self bit rfl

/-- One more field in front. -/
theorem trips_cons {value : Json} {bits : List Bool} {field : FieldLayout}
    {fields : List FieldLayout} {bytes bytes' : List UInt8} {result : Option Json} {g g' : Gathered}
    (hemits : Emits (encodeField encode value field) bytes)
    (hyields : Yields (decodeField decode bits field) bytes result)
    (hemits' : Emits (fields.forM (encodeField encode value)) bytes')
    (hyields' : Yields (decodeFields decode bits (g.add field.place result) fields) bytes' g') :
    Emits ((field :: fields).forM (encodeField encode value)) (bytes ++ bytes') ∧
      Yields (decodeFields decode bits g (field :: fields)) (bytes ++ bytes') g' :=
  ⟨hemits.andThen hemits', hyields.bind hyields'⟩

/-- Members are gathered behind those that have been gathered, as their names are new. -/
theorem trips_object (h : AllTrip forms encode decode) {members : Assoc Json}
    {fields : List FieldLayout} {out : Assoc Json} (hform : ObjectForm forms members fields out)
    {bits : List Bool} (hbits : BitsMatch bits fields (.object members)) (g : Gathered)
    (hnodup : (Assoc.keys (g.members ++ out)).Nodup) : ∃ bytes,
      Emits (fields.forM (encodeField encode (.object members))) bytes ∧
      Yields (decodeFields decode bits g fields) bytes ⟨g.members ++ out, g.items⟩ := by
  induction hform generalizing g with
  | nil =>
    refine ⟨[], Emits.nothing, ?_⟩
    rw [List.append_nil]
    exact Yields.pure g
  | constant hconstant _ ih =>
    obtain ⟨bytes, hemits, hyields⟩ := trips_constant h hconstant .detached (.object members) bits
    obtain ⟨bytes', hemits', hyields'⟩ := ih hbits.cons.2 g hnodup
    exact ⟨_, trips_cons hemits hyields hemits' hyields'⟩
  | @member name content form fields out hcontent _ ih =>
    have hfound : ContentForm forms content (valueAt? (.object members) (.key name)) form :=
      hcontent
    obtain ⟨bytes, hemits, hyields⟩ := trips_content h hfound hbits.cons.1
    -- the name is new, so its member goes to the end
    have hadd : g.add (.key name) (some form) = ⟨g.members ++ [(name, form)], g.items⟩ := by
      simp only [Gathered.add, Assoc.put_eq_append (Assoc.not_mem_keys_of_nodup hnodup)]
    obtain ⟨bytes', hemits', hyields'⟩ := ih hbits.cons.2 ⟨g.members ++ [(name, form)], g.items⟩ (by
      rwa [List.append_assoc])
    rw [List.append_assoc] at hyields'
    rw [← hadd] at hyields'
    exact ⟨_, trips_cons hemits hyields hemits' hyields'⟩

/-- The items of a tuple stand at the positions of its fields. -/
def ItemsMatch (all : List Json) (fields : List FieldLayout) (items : List Json) : Prop :=
  List.Forall₂ (fun position item => all[position]? = some item)
    (fields.filterMap (·.place.position?)) items

/-- Items are gathered in front of those that have been gathered. -/
theorem trips_tuple (h : AllTrip forms encode decode) {all : List Json} {fields : List FieldLayout}
    {items out : List Json} (hform : TupleForm forms fields items out) {bits : List Bool}
    (hbits : BitsMatch bits fields (.array all)) (hitems : ItemsMatch all fields items)
    (g : Gathered) :
    ∃ bytes, Emits (fields.forM (encodeField encode (.array all))) bytes ∧
      Yields (decodeFields decode bits g fields) bytes ⟨g.members, out.reverse ++ g.items⟩ := by
  induction hform generalizing g with
  | nil => exact ⟨[], Emits.nothing, Yields.pure g⟩
  | constant hconstant _ ih =>
    obtain ⟨bytes, hemits, hyields⟩ := trips_constant h hconstant .detached (.array all) bits
    obtain ⟨bytes', hemits', hyields'⟩ := ih hbits.cons.2 hitems g
    exact ⟨_, trips_cons hemits hyields hemits' hyields'⟩
  | @item index content item form fields items out hcontent _ ih =>
    have hboth : List.Forall₂ (fun position item => all[position]? = some item)
        (index :: fields.filterMap (·.place.position?)) (item :: items) := hitems
    obtain ⟨hfirst, hitems'⟩ := List.forall₂_cons.1 hboth
    -- the first of the positions holds the first item
    have hfound : valueAt? (.array all) (.position index) = some item := hfirst
    rw [← hfound] at hcontent
    obtain ⟨bytes, hemits, hyields⟩ := trips_content h hcontent hbits.cons.1
    obtain ⟨bytes', hemits', hyields'⟩ :=
      ih hbits.cons.2 hitems' (g.add (.position index) (some form))
    refine ⟨_, trips_cons hemits hyields hemits' ?_⟩
    rw [List.reverse_cons, List.append_assoc]
    exact hyields'

/-- A bit belongs to one field only. -/
theorem eq_of_bit? {fields : List FieldLayout} (h : (fields.filterMap FieldLayout.bit?).Nodup)
    {field other : FieldLayout} (hfield : field ∈ fields) (hother : other ∈ fields) {bit : ℕ}
    (hbit : field.bit? = some bit) (hsame : other.bit? = some bit) : field = other := by
  have hapart : fields.Pairwise fun a b => ∀ bit, a.bit? = some bit → b.bit? ≠ some bit :=
    (List.pairwise_filterMap.1 h).imp fun hne bit ha hb => hne bit ha bit hb rfl
  have : Std.Symm fun a b : FieldLayout => ∀ bit, a.bit? = some bit → b.bit? ≠ some bit :=
    ⟨fun _ _ hab bit hb ha => hab bit ha hb⟩
  by_contra hne
  exact hapart.forall hfield hother hne bit hbit hsame

/-- The bits that are written tell which fields are there, as each field has a bit of its own. -/
theorem bitsMatch_presenceBits {s : StructLayout} {flags : ℕ}
    (hflags : s.fields.filterMap FieldLayout.bit? = List.range flags)
    (hbytes : s.bitmapBytes = bitmapLength flags) (value : Json) :
    BitsMatch (presenceBits s value) s.fields value := by
  intro field hfield bit hbit
  have hmem : bit ∈ List.range flags := hflags ▸ List.mem_filterMap.2 ⟨field, hfield, hbit⟩
  have hlt : bit < 8 * s.bitmapBytes :=
    hbytes ▸ (List.mem_range.1 hmem).trans_le (le_bitmapLength flags)
  rw [Bool.eq_iff_iff, isSet_presenceBits, mem_presentBits]
  constructor
  · rintro ⟨-, other, hother, hsame, hpresent⟩
    rwa [eq_of_bit? (hflags ▸ List.nodup_range) hfield hother hbit hsame]
  · exact fun hpresent => ⟨hlt, field, hfield, hbit, hpresent⟩

/-- The bits that are read from a struct's bitmap tell which fields are there. -/
theorem bitsMatch_bitmap {s : StructLayout} (hs : s.Numbered) (value : Json) :
    BitsMatch (bitsOfBytes (bitmapBytes s.bitmapBytes (presenceBits s value))) s.fields value := by
  obtain ⟨flags, hflags, hbytes⟩ := hs.bits
  intro field hfield bit hbit
  rw [isSet_bitmap (length_presenceBits s value).le]
  exact bitsMatch_presenceBits hflags hbytes value field hfield bit hbit

theorem length_tupleForm {fields : List FieldLayout} {items out : List Json}
    (h : TupleForm forms fields items out) :
    (fields.filterMap (·.place.position?)).length = items.length := by
  induction h with
  | nil => rfl
  | constant _ _ ih => exact ih
  | item _ _ ih => exact congrArg Nat.succ ih

/-- The compiler numbers the positions in the order of the items, passing over constants. -/
theorem itemsMatch_self {s : StructLayout} (hs : s.Numbered) {items out : List Json}
    (h : TupleForm forms s.fields items out) : ItemsMatch items s.fields items := by
  obtain ⟨count, hcount⟩ := hs.positions
  have hlength := length_tupleForm h
  unfold ItemsMatch
  rw [hcount] at hlength ⊢
  rw [List.forall₂_iff_get]
  refine ⟨hlength, fun i hi hi' => ?_⟩
  rw [List.get_eq_getElem, List.getElem_range, List.get_eq_getElem]
  exact List.getElem?_eq_getElem hi'

/-- **Structs come back.** -/
theorem trips_struct (h : AllTrip forms encode decode) {s : StructLayout} (hs : s.Numbered)
    {value form : Json} (hform : StructForm forms s value form) :
    Trips (encodeStruct encode s value) (decodeStruct decode s) form := by
  have hbits := bitsMatch_bitmap hs value
  -- the bitmap is read whole, before any field
  have hbitmap := Yields.take (bitmapBytes s.bitmapBytes (presenceBits s value))
  rw [length_bitmapBytes] at hbitmap
  unfold StructForm at hform
  unfold encodeStruct decodeStruct
  cases hshape : s.shape with
  | object =>
    rw [hshape] at hform
    obtain ⟨members, out, rfl, rfl, hnodup, hfields⟩ := hform
    obtain ⟨bytes, hemits, hyields⟩ := trips_object h hfields hbits ⟨[], []⟩ hnodup
    exact ⟨_, Emits.look rfl ((Emits.emit _).andThen hemits),
      hbitmap.read.bind (hyields.last (Yields.pure _))⟩
  | tuple =>
    rw [hshape] at hform
    obtain ⟨items, out, rfl, rfl, hfields⟩ := hform
    obtain ⟨bytes, hemits, hyields⟩ :=
      trips_tuple h hfields hbits (itemsMatch_self hs hfields) ⟨[], []⟩
    rw [List.append_nil] at hyields
    refine ⟨_, Emits.look rfl ((Emits.emit _).andThen hemits), hbitmap.read.bind (hyields.last ?_)⟩
    dsimp only
    rw [List.reverse_reverse]
    exact Yields.pure _
  | empty =>
    rw [hshape] at hform
    obtain rfl : form = .object [] := hform
    obtain ⟨hfields, hcount⟩ := hs.empty hshape
    rw [hfields, hcount]
    exact ⟨[], Emits.look rfl Emits.nothing, fun rest offset => rfl⟩

/-! ### Items -/

theorem forall₂_getElem? {R : Json → Json → Prop} {items out : List Json}
    (h : List.Forall₂ R items out) {i : ℕ} {x y : Json} (hx : items[i]? = some x)
    (hy : out[i]? = some y) : R x y := by
  obtain ⟨hi, rfl⟩ := List.getElem?_eq_some_iff.1 hx
  obtain ⟨hi', rfl⟩ := List.getElem?_eq_some_iff.1 hy
  exact (List.forall₂_iff_get.1 h).2 i hi hi'

/-- Items one after the other. What each of them takes at least adds up. -/
theorem trips_items (item : Json → Encoding Unit) (read : ℕ → Decoding Json) (least : Json → ℕ)
    {items out : List Json} (hlength : items.length = out.length) (position : ℕ)
    (h : ∀ i x y, items[i]? = some x → out[i]? = some y →
      ∃ bytes, Emits (item x) bytes ∧ Yields
        (read (position + i)) bytes y ∧ least x ≤ bytes.length) :
    ∃ bytes, Emits (encodeItems item position items) bytes ∧
      (∀ before, Yields (decodeItems read items.length position before) bytes
        (before.reverse ++ out)) ∧
      (items.map least).sum ≤ bytes.length := by
  induction items generalizing out position with
  | nil =>
    obtain rfl : out = [] := List.length_eq_zero_iff.1 hlength.symm
    refine ⟨[], Emits.nothing, fun before => ?_, Nat.le_refl 0⟩
    rw [List.append_nil]
    exact Yields.pure _
  | cons x rest ih =>
    cases out with
    | nil => cases hlength
    | cons y out =>
      obtain ⟨bytes, hemits, hyields, hleast⟩ := h 0 x y rfl rfl
      -- the other items stand one position further on
      obtain ⟨bytes', hemits', hyields', hsum⟩ := ih (Nat.succ.inj hlength) (position + 1) (by
        intro i x' y' hx hy
        have htail := h (i + 1) x' y' hx hy
        rwa [← Nat.add_assoc, Nat.add_right_comm] at htail)
      refine ⟨bytes ++ bytes', (hemits.inside _).andThen hemits', fun before => ?_, ?_⟩
      · have htail := hyields' (y :: before)
        rw [List.reverse_cons, List.append_assoc] at htail
        exact (hyields.inside _).bind htail
      · rw [List.map_cons, List.sum_cons, List.length_append]
        exact Nat.add_le_add hleast hsum

theorem checkLimit_of_le {σ : Type} {limit : Option ℕ} {count : ℕ}
    (h : ∀ greatest, limit = some greatest → count ≤ greatest) :
    checkLimit (σ := σ) limit count = pure () := by
  cases limit with
  | none => rfl
  | some greatest =>
    have hle := h greatest rfl
    simp only [checkLimit]
    rw [if_neg (by omega)]

/-- An encoding of a type takes at least its least length. -/
def KeepsLeast (forms : Forms) (encode : Encoder) (minSize : TypeId → ℕ) : Prop :=
  ∀ id value form bytes, forms id value form → Emits (encode id value) bytes →
    minSize id ≤ bytes.length

/-- **Lists come back.** -/
theorem trips_list (h : AllTrip forms encode decode) (hleast : KeepsLeast forms encode minSize)
    {element : TypeId} {maxLength : Option ℕ} {value form : Json}
    (hform : ListForm forms minSize element maxLength value form) :
    Trips (encodeList encode element maxLength value)
      (decodeList decode minSize element maxLength) form := by
  obtain ⟨items, out, rfl, rfl, hlimit, hzero, hcount, hforms⟩ := hform
  obtain ⟨bytes, hemits, hyields, hsum⟩ := trips_items (encode element) (fun _ => decode element)
    (fun _ => minSize element) hforms.length_eq 0 (by
      intro i x y hx hy
      have hitem := forall₂_getElem? hforms hx hy
      obtain ⟨bytes, hemits, hyields⟩ := h element x y hitem
      exact ⟨bytes, hemits, hyields, hleast element x y bytes hitem hemits⟩)
  rw [List.map_const', List.sum_replicate, smul_eq_mul] at hsum
  refine ⟨Wire.uvarBytes items.length ++ bytes, ?_, ?_⟩
  · refine Emits.look rfl (Emits.look (checkLimit_of_le hlimit) ?_)
    exact (Emits.emit _).andThen hemits
  · refine (Primitive.yields_uvar hcount).read.bind ?_
    rw [checkLimit_of_le hlimit]
    change Yields (checkItems (minSize element) items.length >>= _) bytes _
    have hitems := (hyields []).last (f := fun items => pure (Json.array items)) (Yields.pure _)
    -- elements that may have no bytes are limited in number, others by the room there is
    unfold checkItems
    split
    · next hmin =>
      rw [checkLimit_of_le (fun greatest heq => Option.some.inj heq ▸ hzero hmin)]
      exact hitems
    · exact yields_checkRoom hsum hitems

/-- The bits of an array tell which of its elements are not `null`. -/
def itemBits (a : ArrayLayout) (items : List Json) : Option (List Bool) :=
  if a.nullable then some (items.map fun item => !item.isNull) else none

theorem yields_decodeBits {a : ArrayLayout} {items : List Json} (hlength : items.length = a.size) :
    Yields (decodeBits a) (arrayBitmap a items) (itemBits a items) := by
  unfold decodeBits arrayBitmap itemBits
  split
  · have hbits : (items.map fun item => !item.isNull).length = a.size := by
      rw [List.length_map, hlength]
    have hbitmap :=
      Yields.take (bitmapBytes (bitmapLength a.size) (items.map fun item => !item.isNull))
    rw [length_bitmapBytes] at hbitmap
    refine hbitmap.read.last ?_
    rw [bitsOfBytes_bitmapBytes (hbits ▸ le_bitmapLength _), List.take_left' hbits]
    exact Yields.pure _
  · exact Yields.pure _

/-- The position of an element tells whether it is there. -/
theorem all_isSet_itemBits {a : ArrayLayout} {items : List Json} {i : ℕ} {x : Json}
    (hx : items[i]? = some x) :
    (itemBits a items).all (isSet · i) = !(a.nullable && x.isNull) := by
  unfold itemBits
  cases a.nullable with
  | false => rfl
  | true =>
    rw [if_pos rfl, Option.all_some, isSet, List.getElem?_map, hx]
    rfl

/-- Only the elements that are there need room. -/
theorem sum_itemBits (a : ArrayLayout) {items : List Json}
    (hlength : items.length = a.size) (least : ℕ) :
    presentCount a (itemBits a items) * least =
      (items.map fun item => if (a.nullable && item.isNull) = true then 0 else least).sum := by
  unfold itemBits
  cases a.nullable with
  | false =>
    simp only [presentCount, Bool.false_and, Bool.false_eq_true, if_false, List.map_const',
      List.sum_replicate, smul_eq_mul, hlength]
  | true =>
    clear hlength
    simp only [presentCount, Bool.true_and, if_true]
    induction items with
    | nil => exact Nat.zero_mul least
    | cons item rest ih =>
      rw [List.map_cons, List.map_cons, List.sum_cons, ← ih]
      cases hnull : item.isNull with
      | true => simp
      | false =>
        simp only [Bool.not_false, List.count_cons_self, Bool.false_eq_true, if_false]
        rw [Nat.add_mul, Nat.one_mul, Nat.add_comm]

/-- Elements that are numbers of fixed width are numbers by their type. -/
def NumbersMatch (forms : Forms) (a : ArrayLayout) : Prop :=
  ∀ p, a.numeric = some p → ∀ item form, forms a.element item form → p.HasForm item form

theorem trips_primitive {p : Primitive} {value form : Json} (h : p.HasForm value form) :
    Trips (p.encode value) p.decode form := by
  obtain ⟨bytes, hemits, hyields⟩ := p.round_trip h.1
  rw [← h.2] at hemits
  exact ⟨bytes, hemits, hyields⟩

theorem trips_numberElement (h : AllTrip forms encode decode)
    (hleast : KeepsLeast forms encode minSize) {a : ArrayLayout} (hnumbers : NumbersMatch forms a)
    {item form : Json} (hform : forms a.element item form) :
    ∃ bytes, Emits (elementEncoder encode a item) bytes ∧
      Yields (elementDecoder decode a) bytes form ∧ elementMin minSize a ≤ bytes.length := by
  unfold elementEncoder elementDecoder elementMin
  cases hp : a.numeric with
  | none =>
    obtain ⟨bytes, hemits, hyields⟩ := h a.element item form hform
    exact ⟨bytes, hemits, hyields, hleast a.element item form bytes hform hemits⟩
  | some p =>
    obtain ⟨bytes, hemits, hyields⟩ := trips_primitive (hnumbers p hp item form hform)
    exact ⟨bytes, hemits, hyields, hemits.le_length (writes_primitive p item)⟩

/-- **Arrays come back.** -/
theorem trips_array (h : AllTrip forms encode decode) (hleast : KeepsLeast forms encode minSize)
    {a : ArrayLayout} (hnumbers : NumbersMatch forms a) {value form : Json}
    (hform : ArrayForm forms a value form) :
    Trips (encodeArray encode a value) (decodeArray decode minSize a) form := by
  obtain ⟨items, out, rfl, rfl, hlength, hforms⟩ := hform
  obtain ⟨bytes, hemits, hyields, hsum⟩ := trips_items (encodeElement encode a)
    (decodeElement decode a (itemBits a items))
    (fun item => if (a.nullable && item.isNull) = true then 0 else elementMin minSize a)
    hforms.length_eq 0 (by
      intro i x y hx hy
      have hitem := forall₂_getElem? hforms hx hy
      unfold ElementForm at hitem
      unfold encodeElement decodeElement
      rw [Nat.zero_add, all_isSet_itemBits hx]
      cases hnull : a.nullable && x.isNull with
      | true =>
        rw [hnull] at hitem
        obtain rfl : y = .null := hitem
        exact ⟨[], Emits.nothing, Yields.pure _, Nat.le_refl 0⟩
      | false =>
        rw [hnull] at hitem
        exact trips_numberElement h hleast hnumbers hitem)
  -- elements that are not there take no room, and are not counted either
  rw [← sum_itemBits a hlength] at hsum
  rw [hlength] at hyields
  have hcheck : checkLength a.size items = pure () := if_pos hlength
  refine ⟨arrayBitmap a items ++ bytes, ?_, ?_⟩
  · exact Emits.look rfl (Emits.look hcheck ((Emits.emit _).andThen hemits))
  · refine (yields_decodeBits hlength).bind (yields_checkRoom hsum ?_)
    exact (hyields []).last (Yields.pure _)

theorem emits_encodeByte (byte : UInt8) : Emits (encodeByte (.ofUInt64 byte.toUInt64)) [byte] := by
  have hword : (byte.toUInt64).toNat = byte.toNat := UInt8.toNat_toUInt64 byte
  refine Emits.look (Primitive.unsignedWord_integer "byte" (Int.natCast_nonneg _)) ?_
  rw [Int.toNat_natCast, UInt64.ofNat_toNat, hword, if_pos byte.toNat_lt, UInt8.ofNat_toNat]
  exact Emits.emit [byte]

/-- **Bytes come back.** -/
theorem trips_bytes {count : ℕ} {value form : Json} (hform : BytesForm count value form) :
    Trips (encodeBytes count value) (decodeStep decode minSize (.bytes count)) form := by
  obtain ⟨items, out, rfl, rfl, hlength, hforms⟩ := hform
  have hcheck : checkLength count items = pure () := if_pos hlength
  obtain ⟨bytes, hemits, hout, hcount⟩ : ∃ bytes :
    List UInt8, Emits (encodeItems encodeByte 0 items) bytes ∧
      out = bytes.map (fun byte => Json.ofUInt64 byte.toUInt64) ∧ bytes.length = items.length := by
    -- byte by byte, from any position on
    clear hlength hcheck
    generalize 0 = position
    induction hforms generalizing position with
    | nil => exact ⟨[], Emits.nothing, rfl, rfl⟩
    | cons hitem _ ih =>
      obtain ⟨byte, rfl, hsame⟩ := hitem
      obtain ⟨bytes, hemits, rfl, hcount⟩ := ih (position + 1)
      have hbyte := emits_encodeByte byte
      rw [← hsame] at hbyte
      exact ⟨byte :: bytes, (hbyte.inside _).andThen hemits, rfl, congrArg Nat.succ hcount⟩
  refine ⟨bytes, Emits.look rfl (Emits.look hcheck hemits), ?_⟩
  have htake := Yields.take bytes
  rw [hcount, hlength] at htake
  rw [hout]
  exact htake.read.last (Yields.pure _)

/-- **Padded values come back.** What stands behind a value is skipped. -/
theorem trips_padded (h : AllTrip forms encode decode) {full : Encoder}
    (hfull : ∀ id value bytes, Emits (encode id value) bytes → Emits (full id value) bytes)
    {inner : TypeId} {size : ℕ} {value form : Json}
    (hform : PaddedForm forms full inner size value form) :
    Trips (encodePadded encode inner size value) (decodePadded decode inner size) form := by
  obtain ⟨hinner, after, hafter, hfits⟩ := hform
  obtain ⟨bytes, hemits, hyields⟩ := h inner value form hinner
  -- the encoder that decides what fits appends the same bytes
  have hlength : after.size = bytes.length := by
    have hsame := hfull inner value bytes hemits #[]
    rw [hafter, Array.empty_append] at hsame
    cases hsame
    exact List.size_toArray
  rw [hlength] at hfits
  refine ⟨bytes ++ List.replicate (size - bytes.length) 0, fun buffer => ?_, fun rest offset => ?_⟩
  · rw [encodePadded_of_ok (hemits buffer), Array.size_append, Nat.add_sub_cancel_left,
      List.size_toArray, if_neg (by omega), ← List.append_toArray, Array.append_assoc]
  · have hwindow : (bytes ++ List.replicate (size - bytes.length) 0).length = size := by
      rw [List.length_append, List.length_replicate]
      omega
    have htake :=
      (Yields.take (bytes ++ List.replicate (size - bytes.length) (0 : UInt8))).read rest offset
    rw [hwindow] at htake ⊢
    refine (bind_of_ok htake).trans ?_
    rw [Cursor.ofBytes, hyields]

theorem discriminant_eq {e : EnumLayout} {value found : Json}
    (h : discriminant? e value = some found) :
    discriminant e value = pure found := by
  unfold discriminant? at h
  unfold discriminant
  cases hshape : e.shape with
  | object =>
    rw [hshape] at h
    cases value with
    | object members =>
      have hget : Assoc.get? members e.target = some found := h
      simp only [objectMembers, pure_bind, hget]
    | _ => cases h
  | tuple =>
    rw [hshape] at h
    cases value with
    | array items =>
      cases items with
      | nil => cases h
      | cons first rest =>
        obtain rfl := Option.some.inj h
        rfl
    | _ => cases h

theorem withDiscriminant_of_variantForm {e : EnumLayout} {variant : VariantLayout}
    {payload form : Json} (h : VariantForm e variant payload form) :
    withDiscriminant e variant payload = .ok form := by
  unfold VariantForm at h
  cases hshape : e.shape with
  | object =>
    rw [hshape] at h
    obtain ⟨members, rfl, rfl⟩ := h
    simp only [withDiscriminant, hshape]
    split <;> rfl
  | tuple =>
    rw [hshape] at h
    obtain ⟨items, rfl, rfl⟩ := h
    simp only [withDiscriminant, hshape]
    split <;> rfl

/-- **Enums come back.** -/
theorem trips_enum (h : AllTrip forms encode decode) {e : EnumLayout} {value form : Json}
    (hform : EnumForm forms e value form) :
    Trips (encodeEnum encode e value) (decodeEnum decode e) form := by
  obtain ⟨found, variant, tag, payload, hfound, hselect, htag, hread, hpayload, hvariant⟩ := hform
  obtain ⟨bytes, hemits, hyields⟩ := h e.tag variant.tag tag htag
  obtain ⟨bytes', hemits', hyields'⟩ := h variant.payload _ payload hpayload
  -- the payload is written from the whole value and read as its own form
  refine ⟨bytes ++ bytes', Emits.look (discriminant_eq hfound) ?_, hyields.bind ?_⟩
  · rw [hselect]
    exact hemits.andThen (hemits'.inside _)
  · rw [hread]
    refine (hyields'.inside _).last ?_
    rw [withDiscriminant_of_variantForm hvariant]
    exact Yields.pure _

/-- **One level of a layout.** -/
theorem trips_stepForm (h : AllTrip forms encode decode) (hleast : KeepsLeast forms encode minSize)
    {full : Encoder}
    (hfull : ∀ id value bytes, Emits (encode id value) bytes → Emits (full id value) bytes)
    (layout : Layout) (hs : ∀ s, layout = .struct s → s.Numbered)
    (hnumbers : ∀ a, layout = .array a → NumbersMatch forms a) {value form : Json}
    (hform : StepForm forms full minSize layout value form) :
    Trips (encodeStep encode layout value) (decodeStep decode minSize layout) form := by
  cases layout with
  | primitive p => exact trips_primitive hform
  | struct s => exact trips_struct h (hs s rfl) hform
  | array a => exact trips_array h hleast (hnumbers a rfl) hform
  | enum e => exact trips_enum h hform
  | synonym target => exact h target value form hform
  | list element maxLength => exact trips_list h hleast hform
  | padded inner size => exact trips_padded h hfull hform
  | bytes count => exact trips_bytes hform

end Codec

namespace Arena

variable {arena : Arena}

/-- A form of a type is one of its layout. -/
theorem exists_of_formWithin {levels : ℕ} {id : TypeId} {value form : Json}
    (h : arena.FormWithin levels id value form) :
    ∃ type less, arena.get? id = some type ∧ levels = less + 1 ∧
      Codec.StepForm (arena.FormWithin less) arena.encode arena.minSize type.layout value form := by
  cases levels with
  | zero => exact h.elim
  | succ less =>
    obtain ⟨type, hid, hstep⟩ := h
    exact ⟨type, less, hid, rfl, hstep⟩

/-- The forms of a type that carries a primitive are those of the primitive. -/
theorem Carries.hasForm {id : TypeId} {p : Primitive} (h : arena.Carries id p) {levels : ℕ}
    {value form : Json} (hform : arena.FormWithin levels id value form) : p.HasForm value form := by
  induction h generalizing levels with
  | primitive hid hl =>
    obtain ⟨type, less, hfound, -, hstep⟩ := exists_of_formWithin hform
    obtain rfl := Option.some.inj (hid.symm.trans hfound)
    rw [hl] at hstep
    exact hstep
  | synonym hid hl _ ih =>
    obtain ⟨type, less, hfound, -, hstep⟩ := exists_of_formWithin hform
    obtain rfl := Option.some.inj (hid.symm.trans hfound)
    rw [hl] at hstep
    exact ih hstep

/-- An encoding of a type of the arena is no shorter than the least length that is computed. -/
theorem Grounded.minSize_le_length (h : arena.Grounded) {levels : ℕ} {id : TypeId}
    (hid : id.index < arena.size) {value : Json} {bytes : List UInt8}
    (hemits : Emits (arena.encodeWithin levels id value) bytes) : arena.minSize id ≤ bytes.length :=
  hemits.le_length ((h.writes levels hid value).mono (h.minSize_le_shortest id) le_rfl)

/-- **Forms come back**, at any number of levels. -/
theorem Grounded.trips_within (h : arena.Grounded) (levels : ℕ) {id : TypeId} {value form : Json}
    (hform : arena.FormWithin levels id value form) :
    Trips (arena.encodeWithin levels id value) (arena.decodeWithin levels id) form := by
  induction levels generalizing id value form with
  | zero => exact hform.elim
  | succ levels ih =>
    obtain ⟨type, hid, hstep⟩ := hform
    have hbuilds := h.builds id type hid
    -- further in all forms come back, each with the room that is asked for it
    have hall : Codec.AllTrip (arena.FormWithin levels) (arena.encodeWithin levels)
        (arena.decodeWithin levels) := fun _ _ _ hpart => ih hpart
    have hleast : Codec.KeepsLeast (arena.FormWithin levels) (arena.encodeWithin levels)
        arena.minSize := by
      intro part _ _ bytes hpart hemits
      obtain ⟨_, _, hfound, -⟩ := exists_of_formWithin hpart
      exact h.minSize_le_length (lt_size_of_get? _ hfound) hemits
    rw [encodeWithin_succ hid, decodeWithin_succ hid]
    exact Codec.trips_stepForm hall hleast
      (fun part value _ hemits => hemits.of_repeats (repeats_encode levels part value)) type.layout
      hbuilds.numbered (fun a ha p hp _ _ hitem => (hbuilds.numeric a p ha hp).hasForm hitem) hstep

/-- **A value comes back as its form.** -/
theorem Grounded.trips (h : arena.Grounded) {id : TypeId} {value form : Json}
    (hform : arena.HasForm id value form) :
    Trips (arena.encode id value) (arena.decode id) form := by
  obtain ⟨levels, hwithin⟩ := hform
  obtain ⟨bytes, hemits, hyields⟩ := h.trips_within levels hwithin
  -- `encode` and `decode` have levels enough for this form
  refine ⟨bytes, hemits.of_repeats (repeats_encode levels id value), fun rest offset => ?_⟩
  obtain ⟨taken, htaken, -, hdecode⟩ :=
    (rereads_decode levels id).of_ok trivial (hyields rest offset)
  obtain rfl : bytes = taken := List.append_cancel_right htaken
  exact hdecode offset

end Arena

end Wireform
