import Wireform.Proofs.Codec.Format
import Wireform.Proofs.Codec.Selection

/-!
# Constants read back

A constant that is verified is compared, as it was given, with what has been read. Whether the two
agree is up to the type of the constant: it may narrow a number, or fill in what was left out. But
that is all there is to it. Bytes that have been written are read in step, part by part, so the
bytes of a constant are read at its place, and whatever stands around it does not matter.

* `Arena.echo?`: what is read from the bytes of a value.
* `Layout.Echoed`: constants and tags of a layout are recognized in what is read from their bytes.
* `Passes`: reading gets through bytes and reports no constant.
* `passes_decodeStep`: one level of a layout.
* `Arena.Echoed.passes_decode`: **what has been written is read without such a report.**
-/

namespace Wireform

/-- Not the report that a constant is not the expected one. -/
def Stop.SparesConstants (stop : Stop CodecFailure) : Prop :=
  ∀ path expected found, stop ≠ .failure ⟨path, .constantMismatch expected found⟩

/-- Reading gets through bytes: it ends right behind them, or stops for another reason than a
constant. -/
def Passes {α : Type} (x : Decoding α) (bytes : List UInt8) : Prop :=
  ∀ rest offset, Ensures ⟨bytes ++ rest, offset⟩ x (fun _ after => after.rest = rest)
    fun stop _ => stop.SparesConstants

/-- Reading can get through bytes with a result. -/
def Gives {α : Type} (x : Decoding α) (bytes : List UInt8) (a : α) : Prop :=
  ∃ rest offset after, x ⟨bytes ++ rest, offset⟩ = .ok a after ∧ after.rest = rest

section Passing

variable {α β : Type} {x : Decoding α} {f : α → Decoding β} {front back bytes : List UInt8}
  {a b : α}

theorem Yields.passes (h : Yields x bytes a) : Passes x bytes := by
  intro rest offset
  unfold Ensures
  rw [h rest offset]

theorem Yields.eq_of_gives (h : Yields x bytes a) (hb : Gives x bytes b) : b = a := by
  obtain ⟨rest, offset, after, hrun, -⟩ := hb
  exact (EStateM.Result.ok.inj (hrun.symm.trans (h rest offset))).1

namespace Passes

theorem pure (a : α) : Passes (Pure.pure a) [] := (Yields.pure a).passes

theorem fail {cause : CodecError} (h : ∀ expected found, cause ≠ .constantMismatch expected found) :
    Passes (failWith (α := α) cause) bytes := by
  intro rest offset path expected found heq
  injection heq with heq
  injection heq with _ heq
  exact h expected found heq

/-- **One step after another**, each through its own bytes. -/
theorem bind (hx : Passes x front) (hf : ∀ a, Gives x front a → Passes (f a) back) :
    Passes (x >>= f) (front ++ back) := by
  intro rest offset
  have hfront := hx (back ++ rest) offset
  unfold Ensures at hfront ⊢
  rw [List.append_assoc]
  cases hrun : x ⟨front ++ (back ++ rest), offset⟩ with
  | error stop after =>
    rw [hrun] at hfront
    rw [bind_of_error hrun]
    exact hfront
  | ok a after =>
    rw [hrun] at hfront
    rw [bind_of_ok hrun]
    obtain ⟨left, mid⟩ := after
    obtain rfl : left = back ++ rest := hfront
    exact hf a ⟨_, offset, _, hrun, rfl⟩ rest mid

/-- After the last bytes a step without any. -/
theorem last (hx : Passes x bytes) (hf : ∀ a, Gives x bytes a → Passes (f a) []) :
    Passes (x >>= f) bytes := by
  have h := hx.bind hf
  rwa [List.append_nil] at h

/-- Before the first bytes a check, which takes none. -/
theorem check (hx : Passes x []) (hf : ∀ a, Passes (f a) bytes) : Passes (x >>= f) bytes :=
  hx.bind fun a _ => hf a

theorem inside (step : PathStep) (h : Passes x bytes) : Passes (Wireform.inside step x) bytes := by
  intro rest offset
  have hrun := h rest offset
  unfold Ensures at hrun ⊢
  unfold Wireform.inside
  cases hx : x ⟨bytes ++ rest, offset⟩ with
  | ok a after =>
    rw [hx] at hrun
    exact hrun
  | error stop after =>
    rw [hx] at hrun
    cases stop with
    | outOfFuel => exact hrun
    | failure failure =>
      obtain ⟨path, cause⟩ := failure
      intro path' expected found heq
      injection heq with heq
      injection heq with _ heq
      exact hrun path expected found (heq ▸ rfl)

end Passes

/-- After bytes that are read as a value. -/
theorem Yields.passes_bind (hx : Yields x front a) (hf : Passes (f a) back) :
    Passes (x >>= f) (front ++ back) :=
  hx.passes.bind fun _ hb => hx.eq_of_gives hb ▸ hf

theorem Yields.passes_last (hx : Yields x bytes a) (hf : Passes (f a) []) :
    Passes (x >>= f) bytes :=
  hx.passes.last fun _ hb => hx.eq_of_gives hb ▸ hf

theorem Gives.of_inside {step : PathStep} (h : Gives (Wireform.inside step x) bytes a) :
    Gives x bytes a := by
  obtain ⟨rest, offset, after, hrun, hafter⟩ := h
  exact ⟨rest, offset, after, (inside_ok_iff step).1 hrun, hafter⟩

end Passing

/-! ### Primitives -/

namespace Primitive

theorem exists_of_unsignedWord {type : String} {value : Json} {f : UInt64 → Encoding Unit}
    {bytes : List UInt8} (h : Emits (unsignedWord type value >>= f) bytes) :
    ∃ word, Emits (f word) bytes := by
  cases value with
  | number n =>
    cases hword : n.toWord? with
    | some word =>
      simp only [unsignedWord, hword] at h
      exact ⟨word, h⟩
    | none =>
      simp only [unsignedWord, hword] at h
      exact absurd h Emits.not_fail
  | _ => exact absurd h Emits.not_fail

theorem exists_of_signedWord {type : String} {value : Json} {f : Int64 → Encoding Unit}
    {bytes : List UInt8} (h : Emits (signedWord type value >>= f) bytes) :
    ∃ word, Emits (f word) bytes := by
  cases value with
  | number n =>
    cases hword : n.toSignedWord? with
    | some word =>
      simp only [signedWord, hword] at h
      exact ⟨word, h⟩
    | none =>
      simp only [signedWord, hword] at h
      exact absurd h Emits.not_fail
  | _ => exact absurd h Emits.not_fail

theorem exists_of_doubleOf {value : Json} {f : Binary64 → Encoding Unit} {bytes : List UInt8}
    (h : Emits (doubleOf value >>= f) bytes) : ∃ x, Emits (f x) bytes := by
  cases value with
  | number n => exact ⟨n.toBinary64, h⟩
  | _ => exact absurd h Emits.not_fail

theorem exists_of_dateMillis {value : Json} {f : Int64 → Encoding Unit} {bytes : List UInt8}
    (h : Emits (dateMillis value >>= f) bytes) : ∃ millis, Emits (f millis) bytes := by
  cases value with
  | number n =>
    have hword : Emits (signedWord "Date" (.number n) >>= f) bytes := h
    exact exists_of_signedWord hword
  | string text =>
    cases hmillis : Timestamp.parse? text with
    | some millis =>
      simp only [dateMillis, hmillis] at h
      exact ⟨_, h⟩
    | none =>
      simp only [dateMillis, hmillis] at h
      exact absurd h Emits.not_fail
  | _ => exact absurd h Emits.not_fail

theorem passes_decodeText {encoding : TextEncoding} {text : String} {bytes : List UInt8}
    (h : Emits (encodeText encoding text) bytes) (hlength : bytes.length < 2 ^ 64) :
    Yields (decodeText encoding) bytes text := by
  obtain rfl := h.unique (emits_encodeText encoding text)
  rw [List.length_append] at hlength
  exact yields_decodeText encoding (by omega)

/-- **The bytes of a primitive are read through**, even if they do not give the same value. -/
theorem passes_decode {p : Primitive} {value : Json} {bytes : List UInt8}
    (h : Emits (p.encode value) bytes) (hlength : bytes.length < 2 ^ 64) :
    Passes p.decode bytes := by
  cases p with
  | uint width order =>
    obtain ⟨word, h⟩ := exists_of_unsignedWord h
    split at h
    · next hlt =>
      obtain rfl := h.unique (Emits.emit _)
      exact (yields_uint order hlt).read.passes_last (Passes.pure _)
    · exact absurd h Emits.not_fail
  | int width order =>
    obtain ⟨word, h⟩ := exists_of_signedWord h
    dsimp only at h
    split at h
    · next hrange =>
      obtain rfl := h.unique (Emits.emit _)
      exact (yields_int order hrange.1 hrange.2).read.passes_last (Passes.pure _)
    · exact absurd h Emits.not_fail
  | single order =>
    obtain ⟨x, h⟩ := exists_of_doubleOf h
    obtain rfl := h.unique (Emits.emit _)
    exact (yields_uint order x.toSingleBits.toNat_lt).read.passes_last (Passes.pure _)
  | double order =>
    obtain ⟨x, h⟩ := exists_of_doubleOf h
    obtain rfl := h.unique (Emits.emit _)
    exact (yields_uint order x.bits.toNat_lt).read.passes_last (Passes.pure _)
  | bool =>
    cases value with
    | bool b =>
      obtain rfl := h.unique (Emits.emit _)
      exact Yields.passes_last (Yields.read (a := if b then 1 else 0) fun _ _ => rfl)
        (Passes.pure _)
    | _ => exact absurd h Emits.not_fail
  | uvar =>
    obtain ⟨word, h⟩ := exists_of_unsignedWord h
    obtain rfl := h.unique (Emits.emit _)
    exact (yields_uvar word.toNat_lt).read.passes_last (Passes.pure _)
  | ivar =>
    obtain ⟨word, h⟩ := exists_of_signedWord h
    obtain rfl := h.unique (Emits.emit _)
    exact (yields_uvar (Wire.zigzag_lt word.le_toInt word.toInt_lt)).read.passes_last
      (Passes.pure _)
  | string encoding =>
    cases value with
    | string text => exact (passes_decodeText h hlength).passes_last (Passes.pure _)
    | _ => exact absurd h Emits.not_fail
  | json =>
    refine (passes_decodeText h hlength).passes_last ?_
    split
    · exact Passes.pure _
    · exact Passes.fail fun _ _ heq => by cases heq
  | date =>
    obtain ⟨millis, h⟩ := exists_of_dateMillis h
    obtain rfl := h.unique (Emits.emit _)
    refine (yields_millis millis.le_toInt millis.toInt_lt).read.passes_last ?_
    split
    · exact Passes.pure _
    · exact Passes.fail fun _ _ heq => by cases heq

end Primitive

/-! ### Layouts -/

namespace Codec

variable {encode : Encoder} {decode : Decoder} {minSize : TypeId → ℕ} {bytes : List UInt8}

/-- The bytes of values, as far as they are admitted, are read through. -/
def AllPass (admits : Json → Prop) (encode : Encoder) (decode : Decoder) : Prop :=
  ∀ id value bytes, admits value → Emits (encode id value) bytes → bytes.length < 2 ^ 64 →
    Passes (decode id) bytes

/-- A value is what can be read from the bytes of another one. -/
def Echoes (encode : Encoder) (decode : Decoder) (id : TypeId) (value found : Json) : Prop :=
  ∃ bytes, Emits (encode id value) bytes ∧ Gives (decode id) bytes found

/-- The constant of a field, if it has one, is admitted, and if it is verified it agrees with all
that can be read from its bytes. -/
def ConstantEchoes (admits : Json → Prop) (encode : Encoder) (decode : Decoder)
    (field : FieldLayout) : Prop :=
  ∀ type constant verify, field.content = .constant type constant verify → admits constant ∧
    (verify = true → ∀ found, Echoes encode decode type constant found →
      found.agree constant = true)

/-- The tag of a variant is admitted, and all that can be read from its bytes leads to its
payload. -/
def TagEchoes (admits : Json → Prop) (encode : Encoder) (decode : Decoder) (e : EnumLayout)
    (variant : VariantLayout) :
    Prop :=
  admits variant.tag ∧ ∀ tag, Echoes encode decode e.tag variant.tag tag →
    ∀ other ∈ e.variants.find? (·.tag.agree tag), other.payload = variant.payload

variable {admits : Json → Prop}

/-! #### Structs -/

/-- A field is read through if the bit that is read for it tells what the writer has seen. -/
theorem passes_decodeField (hall : AllPass admits encode decode)
    (hclosed : Json.Closed admits) {value : Json} (hvalue : admits value) {field : FieldLayout}
    {part : List UInt8} {bits : List Bool} (hconstant : ConstantEchoes admits encode decode field)
    (hbit : ∀ bit, field.bit? = some bit → isSet bits bit = isPresent (valueAt? value field.place))
    (hpart : FieldBytes encode value field part) (hlength : part.length < 2 ^ 64) :
    Passes (decodeField decode bits field) part := by
  obtain ⟨place, content⟩ := field
  cases content with
  | constant type constant verify =>
    obtain ⟨hadmitted, hverify⟩ := hconstant type constant verify rfl
    have hemits : Emits (encode type constant) part := hpart
    refine ((hall type constant part hadmitted hemits hlength).inside _).last fun found hfound => ?_
    have hagrees : ¬(verify && !found.agree constant) = true := by
      cases verify with
      | false => simp
      | true => simp [hverify rfl found ⟨part, hemits, hfound.of_inside⟩]
    dsimp only
    rw [if_neg hagrees]
    exact Passes.pure none
  | literal literal =>
    obtain rfl : part = [] := hpart
    exact Passes.pure _
  | value type presence =>
    unfold FieldBytes at hpart
    dsimp only at hpart
    cases presence with
    | none =>
      rw [if_neg fun hboth => Bool.false_ne_true hboth.1] at hpart
      obtain ⟨found, hfound, hemits⟩ := hpart
      have hadmitted := valueAt?_closed hclosed hvalue hfound
      exact ((hall type found part hadmitted hemits hlength).inside _).last fun _ _ => Passes.pure _
    | some bit =>
      simp only [decodeField, hbit bit rfl]
      cases hpresent : isPresent (valueAt? value place) with
      | false =>
        rw [if_pos ⟨rfl, hpresent⟩] at hpart
        obtain rfl := hpart
        exact Passes.pure _
      | true =>
        rw [if_neg fun hboth => Bool.false_ne_true (hboth.2.symm.trans hpresent)] at hpart
        obtain ⟨found, hfound, hemits⟩ := hpart
        have hadmitted := valueAt?_closed hclosed hvalue hfound
        exact ((hall type found part hadmitted hemits hlength).inside _).last
          fun _ _ => Passes.pure _

theorem passes_decodeFields (hall : AllPass admits encode decode)
    (hclosed : Json.Closed admits) {value : Json} (hvalue : admits value)
    {fields : List FieldLayout} {parts : List (List UInt8)} {bits : List Bool}
    (hconstant : ∀ field ∈ fields, ConstantEchoes admits encode decode field)
    (hbit : ∀ field ∈ fields, ∀ bit, field.bit? = some bit →
      isSet bits bit = isPresent (valueAt? value field.place))
    (hparts : List.Forall₂ (FieldBytes encode value) fields parts)
    (hlength : parts.flatten.length < 2 ^ 64) (g : Gathered) :
    Passes (decodeFields decode bits g fields) parts.flatten := by
  induction hparts generalizing g with
  | nil => exact Passes.pure g
  | cons hpart _ ih =>
    rw [List.flatten_cons, List.length_append] at hlength
    refine Passes.bind (passes_decodeField hall hclosed hvalue (hconstant _ List.mem_cons_self)
      (hbit _ List.mem_cons_self) hpart (by omega)) fun _ _ => ?_
    exact ih (fun field hfield => hconstant field (List.mem_cons_of_mem _ hfield))
      (fun field hfield => hbit field (List.mem_cons_of_mem _ hfield)) (by omega) _

/-- **Structs are read through**, the bitmap first. -/
theorem passes_decodeStruct (hall : AllPass admits encode decode) (hclosed : Json.Closed admits)
    (hsteady : Steady encode) {s : StructLayout} (hs : s.Numbered) {value : Json}
    (hvalue : admits value)
    (hconstant : ∀ field ∈ s.fields, ConstantEchoes admits encode decode field)
    (h : Emits (encodeStruct encode s value) bytes) (hlength : bytes.length < 2 ^ 64) :
    Passes (decodeStruct decode s) bytes := by
  by_cases hshape : s.shape = .empty
  · obtain ⟨hfields, hcount⟩ := hs.empty hshape
    have hnothing : Emits (encodeStruct encode s value) [] := by
      unfold encodeStruct checkShape
      rw [hshape]
      exact Emits.nothing
    obtain rfl := h.unique hnothing
    refine Yields.passes (a := .object []) fun rest offset => ?_
    unfold decodeStruct
    rw [hfields, hcount, hshape]
    rfl
  · obtain ⟨flags, hflags, hcount⟩ := hs.bits
    obtain ⟨bitmap, parts, rfl, hformat⟩ := structFormat_of_emits hsteady hshape hflags hcount h
    have hbitmap := Yields.take bitmap
    rw [hformat.length, ← hcount] at hbitmap
    rw [List.length_append] at hlength
    refine hbitmap.read.passes_bind
      (Passes.last (passes_decodeFields hall hclosed hvalue hconstant ?_ hformat.parts
      (by omega) _) fun g _ => ?_)
    · intro field hfield bit hbit
      unfold isSet
      rw [getElem?_bitsOfBytes, hformat.bits field hfield bit hbit, Option.getD_some]
    · split <;> exact Passes.pure _

/-! #### Items -/

theorem passes_checkRoom (count least : ℕ) : Passes (checkRoom count least) [] := by
  intro rest offset
  unfold Ensures checkRoom
  rw [get_bind]
  dsimp only
  split
  · next heq =>
    split at heq
    · cases heq
    · obtain ⟨-, rfl⟩ := EStateM.Result.ok.inj heq
      rfl
  · next heq =>
    split at heq
    · cases heq
      exact fun _ _ _ heq => nomatch heq
    · cases heq

theorem passes_checkLimit (limit : Option ℕ) (count : ℕ) : Passes (checkLimit limit count) [] := by
  unfold checkLimit
  split
  · split
    · exact Passes.fail nofun
    · exact Passes.pure _
  · exact Passes.pure _

/-- Items are read through one after the other. -/
theorem passes_decodeItems {item : ℕ → Decoding Json} {parts : List (List UInt8)} {position : ℕ}
    {before : List Json} (h : ∀ i part, parts[i]? = some part → Passes (item (position + i)) part) :
    Passes (decodeItems item parts.length position before) parts.flatten := by
  induction parts generalizing position before with
  | nil => exact Passes.pure _
  | cons part rest ih =>
    refine ((h 0 part rfl).inside _).bind fun value _ => ih fun i other hother => ?_
    -- the other items stand one position further on
    have htail := h (i + 1) other hother
    rwa [← Nat.add_assoc, Nat.add_right_comm] at htail

theorem length_le_flatten {parts : List (List UInt8)} {part : List UInt8} (h : part ∈ parts) :
    part.length ≤ parts.flatten.length := by
  rw [List.length_flatten]
  exact List.le_sum_of_mem (List.mem_map_of_mem h)

/-- The bytes of an element of an array are read through. -/
theorem passes_elementDecoder (hall : AllPass admits encode decode) {a : ArrayLayout} {item : Json}
    (hitem : admits item) {part : List UInt8} (hpart : Emits (elementEncoder encode a item) part)
    (hlength : part.length < 2 ^ 64) : Passes (elementDecoder decode a) part := by
  unfold elementEncoder at hpart
  unfold elementDecoder
  cases hp : a.numeric with
  | none =>
    rw [hp] at hpart
    exact hall a.element item part hitem hpart hlength
  | some p =>
    rw [hp] at hpart
    exact Primitive.passes_decode hpart hlength

/-- **Arrays are read through.** -/
theorem passes_decodeArray (hall : AllPass admits encode decode) (hclosed : Json.Closed admits)
    (hsteady : Steady encode) {a : ArrayLayout} {value : Json} (hvalue : admits value)
    (h : Emits (encodeArray encode a value) bytes) (hlength : bytes.length < 2 ^ 64) :
    Passes (decodeArray decode minSize a) bytes := by
  obtain ⟨items, parts, rfl, hsize, rfl, hparts⟩ := exists_of_emits_array hsteady h
  rw [List.length_append] at hlength
  have hcount : parts.length = a.size := by rw [← hparts.length_eq, hsize]
  refine (yields_decodeBits hsize).passes_bind ((passes_checkRoom _ _).check fun _ => ?_)
  rw [← hcount]
  refine Passes.last (passes_decodeItems fun i part hpart => ?_) fun _ _ => Passes.pure _
  have hlt : i < items.length := hparts.length_eq ▸ (List.getElem?_eq_some_iff.1 hpart).1
  have hitem : items[i]? = some items[i] := List.getElem?_eq_getElem hlt
  have helement : ElementBytes (elementEncoder encode a) a.nullable items[i] part := by
    obtain ⟨hi, rfl⟩ := List.getElem?_eq_some_iff.1 hpart
    exact (List.forall₂_iff_get.1 hparts).2 i hlt hi
  unfold ElementBytes at helement
  unfold decodeElement
  -- the position of an element tells whether it is there
  rw [Nat.zero_add, all_isSet_itemBits hitem]
  cases hnull : a.nullable && items[i].isNull with
  | true =>
    rw [if_pos hnull] at helement
    obtain rfl := helement
    exact Passes.pure _
  | false =>
    rw [if_neg (by simp [hnull])] at helement
    have hle := length_le_flatten (List.mem_of_getElem? hpart)
    have hadmitted := hclosed.item items _ hvalue (List.mem_of_getElem? hitem)
    exact passes_elementDecoder hall hadmitted helement (by omega)

/-- **Lists are read through**, if their count is a word. -/
theorem passes_decodeList (hall : AllPass admits encode decode) (hclosed : Json.Closed admits)
    (hcounts : ∀ items, admits (.array items) → items.length < 2 ^ 64) (hsteady : Steady encode)
    {element : TypeId} {maxLength : Option ℕ} {value : Json} (hvalue : admits value)
    (h : Emits (encodeList encode element maxLength value) bytes)
    (hlength : bytes.length < 2 ^ 64) :
    Passes (decodeList decode minSize element maxLength) bytes := by
  obtain ⟨items, parts, rfl, -, rfl, hparts⟩ := exists_of_emits_list hsteady h
  rw [List.length_append] at hlength
  refine (Primitive.yields_uvar (hcounts items hvalue)).read.passes_bind ?_
  refine (passes_checkLimit maxLength items.length).check fun _ => ?_
  have hcheck : Passes (checkItems (minSize element) items.length) [] := by
    unfold checkItems
    split
    · exact passes_checkLimit _ _
    · exact passes_checkRoom _ _
  refine hcheck.check fun _ => ?_
  rw [hparts.length_eq]
  refine Passes.last (passes_decodeItems fun i part hpart => ?_) fun _ _ => Passes.pure _
  obtain ⟨hi, rfl⟩ := List.getElem?_eq_some_iff.1 hpart
  have hlt : i < items.length := hparts.length_eq ▸ hi
  have hemits : Emits (encode element items[i]) parts[i] :=
    (List.forall₂_iff_get.1 hparts).2 i hlt hi
  have hle := length_le_flatten (List.getElem_mem hi)
  exact hall element items[i] _ (hclosed.item items _ hvalue (List.getElem_mem hlt))
    hemits (by omega)

/-! #### Other layouts -/

/-- **Padded values are read through**: the window ends where the padding does. -/
theorem passes_decodePadded (hall : AllPass admits encode decode) (hsteady : Steady encode)
    {inner : TypeId} {size : ℕ} {value : Json} (hvalue : admits value)
    (h : Emits (encodePadded encode inner size value) bytes) (hlength : bytes.length < 2 ^ 64) :
    Passes (decodePadded decode inner size) bytes := by
  obtain ⟨front, hfront, hle, rfl⟩ := exists_of_emits_padded hsteady h
  have hsize : (front ++ List.replicate (size - front.length) (0 : UInt8)).length = size := by
    rw [List.length_append, List.length_replicate]
    omega
  have htake := Yields.take (front ++ List.replicate (size - front.length) (0 : UInt8))
  rw [hsize] at htake hlength
  refine htake.read.passes_last fun rest offset => ?_
  have hwindow :=
    hall inner value front hvalue hfront (by omega) (List.replicate (size - front.length) 0) 0
  unfold Ensures at hwindow ⊢
  unfold Cursor.ofBytes
  cases hrun : decode inner ⟨front ++ List.replicate (size - front.length) 0, 0⟩ with
  | ok found after => rfl
  | error stop after =>
    rw [hrun] at hwindow
    exact hwindow

/-- The bytes of an enum are those of a tag and of a payload. -/
theorem exists_of_emits_enum (hsteady : Steady encode) {e : EnumLayout} {value : Json}
    (h : Emits (encodeEnum encode e value) bytes) : ∃ variant front back, variant ∈ e.variants ∧
      Emits (encode e.tag variant.tag) front ∧
      Emits (encode variant.payload (payloadOf e.shape variant value)) back ∧
      bytes = front ++ back := by
  obtain ⟨k, variant, mid, -, hget, htag, hpayload⟩ := exists_of_encodeEnum (h #[])
  obtain ⟨front, hfront, rfl⟩ := Emits.exists_of_run (hsteady _ _) htag
  obtain ⟨back, hback, hall⟩ := Emits.exists_of_run (hsteady _ _) hpayload
  refine ⟨variant, front, back, List.mem_of_getElem? hget, hfront, hback, ?_⟩
  rw [Array.empty_append, Array.empty_append, List.append_toArray] at hall
  exact congrArg Array.toList hall

/-- **Enums are read through** if the tag that is read back leads to the payload that was
written. -/
theorem passes_decodeEnum (hall : AllPass admits encode decode) (hclosed : Json.Closed admits)
    (hsteady : Steady encode) {e : EnumLayout} {value : Json} (hvalue : admits value)
    (htags : ∀ variant ∈ e.variants, TagEchoes admits encode decode e variant)
    (h : Emits (encodeEnum encode e value) bytes) (hlength : bytes.length < 2 ^ 64) :
    Passes (decodeEnum decode e) bytes := by
  obtain ⟨variant, front, back, hvariant, hfront, hback, rfl⟩ := exists_of_emits_enum hsteady h
  obtain ⟨hadmitted, hother⟩ := htags variant hvariant
  rw [List.length_append] at hlength
  refine (hall e.tag variant.tag front hadmitted hfront (by omega)).bind fun tag htag => ?_
  split
  · exact Passes.fail nofun
  · next other hfind =>
    have hsame := hother tag ⟨front, hfront, htag⟩ other hfind
    have hpayload := payloadOf_closed hclosed hvalue e.shape variant
    rw [hsame]
    refine ((hall variant.payload _ back hpayload hback (by omega)).inside _).last
      fun payload _ => ?_
    split
    · exact Passes.pure _
    · next cause hcause =>
      obtain ⟨kind, refused, rfl⟩ := withDiscriminant_error hcause
      exact Passes.fail nofun

/-- **One level of a layout.** -/
theorem passes_decodeStep (hall : AllPass admits encode decode) (hclosed : Json.Closed admits)
    (hcounts : ∀ items, admits (.array items) → items.length < 2 ^ 64) (hsteady : Steady encode)
    {layout : Layout} (hs : ∀ s, layout = .struct s → s.Numbered)
    (hconstant : ∀ s, layout = .struct s →
      ∀ field ∈ s.fields, ConstantEchoes admits encode decode field)
    (htags : ∀ e, layout = .enum e →
      ∀ variant ∈ e.variants, TagEchoes admits encode decode e variant)
    {value : Json} (hvalue : admits value) (h : Emits (encodeStep encode layout value) bytes)
    (hlength : bytes.length < 2 ^ 64) : Passes (decodeStep decode minSize layout) bytes := by
  cases layout with
  | primitive p => exact Primitive.passes_decode h hlength
  | struct s =>
    exact passes_decodeStruct hall hclosed hsteady (hs s rfl) hvalue (hconstant s rfl) h hlength
  | array a => exact passes_decodeArray hall hclosed hsteady hvalue h hlength
  | enum e => exact passes_decodeEnum hall hclosed hsteady hvalue (htags e rfl) h hlength
  | synonym target => exact hall target value bytes hvalue h hlength
  | list element maxLength => exact passes_decodeList hall hclosed hcounts hsteady hvalue h hlength
  | padded inner size => exact passes_decodePadded hall hsteady hvalue h hlength
  | bytes count =>
    have htake := Yields.take bytes
    rw [length_of_emits_bytes h] at htake
    exact htake.read.passes_last (Passes.pure _)

end Codec

/-! ### Types -/

namespace Json

theorem weight_le_of_mem_items {items : List Json} {item : Json} (h : item ∈ items) :
    item.weight ≤ weightItems items := by
  induction items with
  | nil => cases h
  | cons first rest ih =>
    unfold weightItems
    rcases List.mem_cons.1 h with rfl | h
    · omega
    · have hle := ih h
      omega

theorem weight_le_of_mem_members {members : List (String × Json)} {name : String} {value : Json}
    (h : (name, value) ∈ members) : value.weight ≤ weightMembers members := by
  induction members with
  | nil => cases h
  | cons first rest ih =>
    obtain ⟨name', value'⟩ := first
    unfold weightMembers
    rcases List.mem_cons.1 h with heq | h
    · cases heq
      omega
    · have hle := ih h
      omega

/-- The parts of a value weigh no more than the value. -/
theorem closed_weight (bound : ℕ) : Closed fun part => part.weight ≤ bound where
  item := by
    intro items item h hitem
    rw [weight] at h
    have hle := weight_le_of_mem_items hitem
    omega
  tail := by
    intro first rest h
    rw [weight, weightItems] at h
    rw [weight]
    omega
  member := by
    intro members name value h hmember
    rw [weight] at h
    have hle := weight_le_of_mem_members hmember
    omega

theorem length_le_weight (items : List Json) : items.length ≤ (array items).weight := by
  have hle : items.length ≤ weightItems items := by
    induction items with
    | nil => exact Nat.le_refl 0
    | cons first rest ih =>
      rw [List.length_cons, weightItems]
      omega
  rw [weight]
  omega

end Json

/-- What is read from the bytes of a value, if it has bytes and they are read. -/
def Arena.echo? (arena : Arena) (id : TypeId) (value : Json) : Option Json :=
  match arena.encode id value #[] with
  | .ok _ buffer =>
    match arena.decode id (.ofBytes buffer.toList) with
    | .ok found _ => some found
    | .error .. => none
  | .error .. => none

/-- A constant that is verified agrees with what is read from its bytes. -/
def FieldContent.Echoed (arena : Arena) : FieldContent → Prop
  | .constant id given true => ∀ found ∈ arena.echo? id given, found.agree given = true
  | _ => True

/-- Constants agree with what is read from their bytes, and what is read from the bytes of a tag
leads to the payload that stands behind them. -/
def Layout.Echoed (arena : Arena) : Layout → Prop
  | .struct s => ∀ field ∈ s.fields, field.content.Echoed arena
  | .enum e => ∀ variant ∈ e.variants, ∀ tag ∈ arena.echo? e.tag variant.tag,
      ∀ other ∈ e.variants.find? (·.tag.agree tag), other.payload = variant.payload
  | _ => True

/-- The constants and tags of all types are recognized in what is read from their bytes. -/
def Arena.Echoed (arena : Arena) : Prop :=
  ∀ slot ∈ arena.slots.toList, ∀ type ∈ slot, type.layout.Echoed arena

instance (arena : Arena) : (content : FieldContent) → Decidable (content.Echoed arena)
  | .constant id given true =>
    inferInstanceAs (Decidable (∀ found ∈ arena.echo? id given, found.agree given = true))
  | .constant _ _ false | .literal _ | .value _ _ => isTrue trivial

instance (arena : Arena) : (layout : Layout) → Decidable (layout.Echoed arena)
  | .struct s => inferInstanceAs (Decidable (∀ field ∈ s.fields, field.content.Echoed arena))
  | .enum e =>
    inferInstanceAs (Decidable (∀ variant ∈ e.variants, ∀ tag ∈ arena.echo? e.tag variant.tag,
      ∀ other ∈ e.variants.find? (·.tag.agree tag), other.payload = variant.payload))
  | .primitive _ | .array _ | .synonym _ | .list _ _ | .padded _ _ | .bytes _ => isTrue trivial

instance (arena : Arena) : Decidable arena.Echoed :=
  inferInstanceAs (Decidable (∀ slot ∈ arena.slots.toList, ∀ type ∈ slot, type.layout.Echoed arena))

namespace Arena

variable {arena : Arena}

theorem Echoed.layout (h : arena.Echoed) {id : TypeId} {type : CompiledType}
    (hid : arena.get? id = some type) :
    type.layout.Echoed arena := by
  have hslot : arena.slots[id.index]? = some (some type) := Option.join_eq_some_iff.1 hid
  exact h (some type) (Array.mem_toList_iff.2 (Array.mem_of_getElem? hslot)) type rfl

theorem weight_le_constantWeight {constant : Json} (h : constant ∈ arena.constants) :
    constant.weight ≤ arena.constantWeight := by
  rw [← length_parts_constants, ← Json.length_parts, List.length_flatMap]
  exact List.le_sum_of_mem
    (List.mem_map_of_mem (f := fun constant => (Json.parts constant).length) h)

namespace Grounded

variable (h : arena.Grounded)

include h

/-- What is read from the bytes of a value at some number of levels, whatever follows, is read from
them alone. -/
theorem echo?_of_echoes {less levels : ℕ} {id : TypeId} {value found : Json}
    (hechoes : Codec.Echoes (arena.encodeWithin less) (arena.decodeWithin levels) id value found) :
    arena.echo? id value = some found := by
  obtain ⟨bytes, hemits, rest, offset, after, hrun, rfl⟩ := hechoes
  obtain ⟨taken, htaken, -, hdecode⟩ := (rereads_decode levels id).of_ok trivial hrun
  obtain rfl : bytes = taken := List.append_cancel_right htaken
  obtain ⟨taken, hrest, hyields⟩ := h.takes_decode id _ _ _ (hdecode 0)
  obtain rfl : bytes = taken := List.append_cancel_right hrest
  have halone := hyields [] 0
  rw [List.append_nil] at halone
  have hencode := emits_encode hemits #[]
  rw [Array.empty_append] at hencode
  unfold echo?
  simp only [hencode, Cursor.ofBytes, halone]

/-- **What has been written is read through**, at any number of levels. -/
theorem passes_decodeWithin (hechoed : arena.Echoed) {bound : ℕ} (hbound : bound < 2 ^ 64)
    (hconstants : arena.constantWeight ≤ bound) (levels : ℕ) :
    Codec.AllPass (·.weight ≤ bound) arena.encode (arena.decodeWithin levels) := by
  induction levels with
  | zero => exact fun id value bytes _ _ _ rest offset path expected found heq => nomatch heq
  | succ levels ih =>
    intro id value bytes hvalue hemits hlength
    have hadmitted : ∀ {type : CompiledType}, arena.get? id = some type →
        ∀ constant ∈ type.layout.constants, constant.weight ≤ bound := fun hid constant hmem =>
      (weight_le_constantWeight (mem_constants hid hmem)).trans hconstants
    cases hid : arena.get? id with
    | none =>
      have hrun := hemits #[]
      simp only [encode, encodeLevels, encodeWithin, hid] at hrun
      cases hrun
    | some type =>
      have hlayout := hechoed.layout hid
      obtain ⟨less, bytes', hstep, hsame⟩ := exists_of_encode hid (hemits #[])
      obtain rfl : bytes = bytes' := by
        rw [Array.empty_append, Array.empty_append] at hsame
        exact congrArg Array.toList hsame
      rw [decodeWithin_succ hid]
      refine Codec.passes_decodeStep
        (fun part value bytes hvalue hpart => ih part value bytes hvalue (emits_encode hpart))
        (Json.closed_weight bound) (fun items hitems => ?_) (steady_encodeWithin less)
        (h.builds id type hid).numbered ?_ ?_ hvalue hstep hlength
      · exact Nat.lt_of_le_of_lt (Json.length_le_weight items) (Nat.lt_of_le_of_lt hitems hbound)
      · intro s hs field hfield part constant verify hcontent
        rw [hs] at hlayout
        refine ⟨hadmitted hid constant ?_, fun hverify found hfound => ?_⟩
        · rw [hs]
          exact List.mem_filterMap.2 ⟨field, hfield, by rw [hcontent]⟩
        · have hown := hlayout field hfield
          rw [hcontent, hverify] at hown
          exact hown found (h.echo?_of_echoes hfound)
      · intro e he variant hvariant
        rw [he] at hlayout
        refine ⟨hadmitted hid variant.tag ?_, fun tag htag => ?_⟩
        · rw [he]
          exact List.mem_map_of_mem hvariant
        · exact hlayout variant hvariant tag (h.echo?_of_echoes htag)

/-- **What has been written is read without the report of a constant.** -/
theorem passes_decode (hechoed : arena.Echoed) {id : TypeId} {value : Json} {bytes : List UInt8}
    (hweight : value.weight + arena.constantWeight < 2 ^ 64)
    (hemits : Emits (arena.encode id value) bytes) (hlength : bytes.length < 2 ^ 64) :
    Passes (arena.decode id) bytes := by
  intro rest offset
  exact h.passes_decodeWithin hechoed hweight (Nat.le_add_left _ _) _ id value bytes
    (Nat.le_add_right _ _) hemits
    hlength rest offset

end Grounded

end Arena

end Wireform
