import Wireform.Proofs.Codec.EncodeLevels
import Wireform.Proofs.Codec.Reads

/-!
# Enough levels to decode

Decoding looks only at the bytes that are left, so that the slots entered with one and the
same input are finitely many; as long as nothing has been taken off the input, a further
level has to let a further slot come to an end. Each byte taken starts the count anew, with
less input.

* `rereads_decodeStep`: one level of a layout reads with other decoders of its parts what
  it read with the first ones.
* `Arena.rereads_decode`: **what ends at some number of levels is what `decode` does**.
* `Arena.Agree.rereads_decode`: it is also what `decode` does in an arena that agrees.
-/

namespace Wireform

/-- What a decoding does to an input, wherever that stands: it takes bytes off the front, or it
fails for a reason that may tell the place. -/
def Meets {α : Type} (x : Decoding α) (bytes : List UInt8) :
    Except (ℕ → CodecFailure) (α × List UInt8) → Prop
  | .ok (a, rest) => ∃ taken, bytes = taken ++ rest ∧
    ∀ offset, x ⟨bytes, offset⟩ = .ok a ⟨rest, offset + taken.length⟩
  | .error failure =>
    ∀ offset, ∃ after, x ⟨bytes, offset⟩ = .error (.failure (failure offset)) after

/-- On inputs with a property `y` does what `x` does, wherever they stand, unless `x` lacks
levels. -/
def Rereads {α : Type} (s : List UInt8 → Prop) (x y : Decoding α) : Prop :=
  ∀ bytes, s bytes → (∀ offset, Starves ⟨bytes, offset⟩ x) ∨
    ∃ out, Meets x bytes out ∧ Meets y bytes out

/-- A property of inputs that their parts share. -/
def PassesOn (s : List UInt8 → Prop) : Prop := ∀ part whole, part <:+: whole → s whole → s part

section Meets

variable {α : Type} {x y : Decoding α} {bytes : List UInt8}
  {out out' : Except (ℕ → CodecFailure) (α × List UInt8)}

theorem Meets.not_starves (h : Meets x bytes out) (offset : ℕ) : ¬Starves ⟨bytes, offset⟩ x := by
  rintro ⟨t, ht⟩
  cases out with
  | ok found =>
    obtain ⟨taken, -, hrun⟩ := h
    rw [hrun offset] at ht
    cases ht
  | error failure =>
    obtain ⟨after, hrun⟩ := h offset
    rw [hrun] at ht
    cases ht

theorem Meets.unique (h : Meets x bytes out) (h' : Meets x bytes out') : out = out' := by
  cases out with
  | ok found =>
    obtain ⟨taken, -, hrun⟩ := h
    cases out' with
    | ok found' =>
      obtain ⟨taken', -, hrun'⟩ := h'
      obtain ⟨ha, hcursor⟩ := EStateM.Result.ok.inj ((hrun 0).symm.trans (hrun' 0))
      exact congrArg Except.ok (Prod.ext ha (Cursor.mk.inj hcursor).1)
    | error failure =>
      obtain ⟨after, hrun'⟩ := h' 0
      rw [hrun 0] at hrun'
      cases hrun'
  | error failure =>
    cases out' with
    | ok found' =>
      obtain ⟨after, hrun⟩ := h 0
      obtain ⟨taken, -, hrun'⟩ := h'
      rw [hrun' 0] at hrun
      cases hrun
    | error failure' =>
      refine congrArg Except.error (funext fun offset => ?_)
      obtain ⟨after, hrun⟩ := h offset
      obtain ⟨after', hrun'⟩ := h' offset
      exact Stop.failure.inj (EStateM.Result.error.inj (hrun.symm.trans hrun')).1

end Meets

namespace Rereads

variable {α β : Type} {s : List UInt8 → Prop} {x y z : Decoding α}

theorem of_starves (h : ∀ c, Starves c x) : Rereads s x y := fun _ _ => Or.inl fun _ => h _

theorem pure (a : α) : Rereads s (Pure.pure a) (Pure.pure a) := by
  intro bytes _
  have hmeets : Meets (Pure.pure a) bytes (.ok (a, bytes)) := ⟨[], rfl, fun _ => rfl⟩
  exact Or.inr ⟨_, hmeets, hmeets⟩

theorem fail (cause : CodecError) : Rereads s (failWith (α := α) cause) (failWith cause) := by
  intro bytes _
  have hmeets : Meets (failWith (α := α) cause) bytes (.error fun _ => ⟨[], cause⟩) :=
    fun _ => ⟨_, rfl⟩
  exact Or.inr ⟨_, hmeets, hmeets⟩

/-- Reading bytes succeeds everywhere or fails everywhere. -/
theorem read {x : Reading α} (hx : Takes x) : Rereads s (Wireform.read x) (Wireform.read x) := by
  intro bytes _
  refine Or.inr ?_
  cases hrun : x ⟨bytes, 0⟩ with
  | ok a after =>
    obtain ⟨taken, hrest, hyields⟩ := hx _ a after hrun
    have hmeets : Meets (Wireform.read x) bytes (.ok (a, after.rest)) := by
      refine ⟨taken, hrest, fun offset => read_ok_iff.2 ?_⟩
      rw [show bytes = taken ++ after.rest from hrest]
      exact hyields after.rest offset
    exact ⟨_, hmeets, hmeets⟩
  | error short after =>
    have hfails : ∀ offset, ∃ short after, x ⟨bytes, offset⟩ = .error short after := by
      intro offset
      cases hother : x ⟨bytes, offset⟩ with
      | error short after => exact ⟨short, after, rfl⟩
      | ok a after =>
        -- a success would be one at zero too
        obtain ⟨taken, hrest, hyields⟩ := hx _ a after hother
        have hzero := hyields after.rest 0
        rw [← hrest, hrun] at hzero
        cases hzero
    choose shorts afters hfails using hfails
    have hmeets : Meets (Wireform.read x) bytes
        (.error fun offset =>
          ⟨[], .unexpectedEnd (shorts offset).needed (shorts offset).offset⟩) := by
      refine fun offset => ⟨afters offset, ?_⟩
      unfold Wireform.read
      rw [hfails offset]
    exact ⟨_, hmeets, hmeets⟩

theorem bind {f g : α → Decoding β} (hs : PassesOn s) (hxy : Rereads s x y)
    (hfg : ∀ a, Rereads s (f a) (g a)) : Rereads s (x >>= f) (y >>= g) := by
  intro bytes hbytes
  rcases hxy bytes hbytes with hstarves | ⟨out, hx, hy⟩
  · exact Or.inl fun offset => (hstarves offset).bind f
  cases out with
  | error failure =>
    refine Or.inr ⟨.error failure, fun offset => ?_, fun offset => ?_⟩
    · exact (hx offset).imp fun _ hrun => bind_of_error hrun
    · exact (hy offset).imp fun _ hrun => bind_of_error hrun
  | ok found =>
    obtain ⟨a, rest⟩ := found
    obtain ⟨taken, hrest, hx⟩ := hx
    obtain ⟨taken', hrest', hy⟩ := hy
    obtain rfl : taken = taken' := List.append_cancel_right (hrest.symm.trans hrest')
    -- what is left after the first step is a part of the input
    have hpart : s rest := hs _ _ (hrest ▸ (List.suffix_append taken rest).isInfix) hbytes
    rcases hfg a rest hpart with hstarves | ⟨out, hf, hg⟩
    · exact Or.inl fun offset => Starves.bind_of_ok (hx offset) (hstarves _)
    cases out with
    | ok found =>
      obtain ⟨b, rest'⟩ := found
      have hboth : ∀ {x : Decoding α} {f : α → Decoding β},
          (∀ offset, x ⟨bytes, offset⟩ = .ok a ⟨rest, offset + taken.length⟩) →
          Meets (f a) rest (.ok (b, rest')) → Meets (x >>= f) bytes (.ok (b, rest')) := by
        rintro x f hx ⟨more, hmore, hf⟩
        refine ⟨taken ++ more, by rw [hrest, hmore, List.append_assoc], fun offset => ?_⟩
        rw [bind_of_ok (hx offset), hf, List.length_append, Nat.add_assoc]
      exact Or.inr ⟨_, hboth hx hf, hboth hy hg⟩
    | error failure =>
      refine Or.inr ⟨.error fun offset => failure (offset + taken.length), fun offset => ?_,
        fun offset => ?_⟩
      · exact (hf _).imp fun _ hrun => (bind_of_ok (hx offset)).trans hrun
      · exact (hg _).imp fun _ hrun => (bind_of_ok (hy offset)).trans hrun

theorem inside (step : PathStep) (h : Rereads s x y) :
    Rereads s (Wireform.inside step x) (Wireform.inside step y) := by
  intro bytes hbytes
  rcases h bytes hbytes with hstarves | ⟨out, hx, hy⟩
  · exact Or.inl fun offset => (hstarves offset).inside step
  cases out with
  | ok found =>
    refine Or.inr ⟨.ok found, ?_, ?_⟩
    · obtain ⟨taken, hrest, hx⟩ := hx
      exact ⟨taken, hrest, fun offset => (inside_ok_iff step).2 (hx offset)⟩
    · obtain ⟨taken, hrest, hy⟩ := hy
      exact ⟨taken, hrest, fun offset => (inside_ok_iff step).2 (hy offset)⟩
  | error failure =>
    refine Or.inr ⟨.error fun offset => (failure offset).within step, fun offset => ?_,
      fun offset => ?_⟩
    · exact (hx offset).imp fun _ hrun => inside_of_failure step hrun
    · exact (hy offset).imp fun _ hrun => inside_of_failure step hrun

theorem trans (hxy : Rereads s x y) (hyz : Rereads s y z) : Rereads s x z := by
  intro bytes hbytes
  rcases hxy bytes hbytes with hstarves | ⟨out, hx, hy⟩
  · exact Or.inl hstarves
  rcases hyz bytes hbytes with hstarves | ⟨out', hy', hz⟩
  · exact absurd (hstarves 0) (hy.not_starves 0)
  · exact Or.inr ⟨out, hx, hy.unique hy' ▸ hz⟩

theorem mono {s' : List UInt8 → Prop} (h : Rereads s x y) (hs : ∀ bytes, s' bytes → s bytes) :
    Rereads s' x y := fun bytes hbytes => h bytes (hs bytes hbytes)

/-- If `y` rereads both `x` and `z`, then `z` rereads `x` too if it does not lack levels itself. -/
theorem of_ends (hxy : Rereads s x y) (hzy : Rereads s z y)
    (h : ∀ bytes, s bytes → ¬Starves ⟨bytes, 0⟩ x → ¬Starves ⟨bytes, 0⟩ z) : Rereads s x z := by
  intro bytes hbytes
  rcases hxy bytes hbytes with hstarves | ⟨out, hx, hy⟩
  · exact Or.inl hstarves
  rcases hzy bytes hbytes with hstarves | ⟨out', hz, hy'⟩
  · exact absurd (hstarves 0) (h bytes hbytes (hx.not_starves 0))
  · exact Or.inr ⟨out, hx, hy.unique hy' ▸ hz⟩

/-- What does not lack levels at one place does not lack them at another. -/
theorem not_starves (h : Rereads s x y) {c : Cursor} (hc : s c.rest)
    (hx : ¬Starves c x) (offset : ℕ) :
    ¬Starves ⟨c.rest, offset⟩ y := by
  rcases h c.rest hc with hstarves | ⟨out, -, hy⟩
  · exact absurd (hstarves c.offset) hx
  · exact hy.not_starves offset

/-- What rereads each other ends in the same. -/
theorem ending_eq (hxy : Rereads s x y) (hyx : Rereads s y x) {c : Cursor} (hc : s c.rest) :
    ending x c = ending y c := by
  rcases hxy c.rest hc with hx | ⟨out, hx, hy⟩
  · rcases hyx c.rest hc with hy | ⟨out, -, hx'⟩
    · obtain ⟨t, ht⟩ := hx c.offset
      obtain ⟨t', ht'⟩ := hy c.offset
      rw [ending_of_error ht, ending_of_error ht']
    · exact absurd (hx c.offset) (hx'.not_starves c.offset)
  cases out with
  | ok found =>
    obtain ⟨taken, hrest, hx⟩ := hx
    obtain ⟨taken', hrest', hy⟩ := hy
    obtain rfl : taken = taken' := List.append_cancel_right (hrest.symm.trans hrest')
    rw [ending_of_ok (hx c.offset), ending_of_ok (hy c.offset)]
  | error failure =>
    obtain ⟨t, ht⟩ := hx c.offset
    obtain ⟨t', ht'⟩ := hy c.offset
    rw [ending_of_error ht, ending_of_error ht']

/-- A result is read again from the same bytes. -/
theorem of_ok (h : Rereads s x y) {c after : Cursor} {a : α} (hc : s c.rest)
    (hx : x c = .ok a after) :
    ∃ taken, c.rest = taken ++ after.rest ∧ after.offset = c.offset + taken.length ∧
      ∀ offset, y ⟨c.rest, offset⟩ = .ok a ⟨after.rest, offset + taken.length⟩ := by
  rcases h c.rest hc with hstarves | ⟨out, hx', hy⟩
  · obtain ⟨t, ht⟩ := hstarves c.offset
    rw [hx] at ht
    cases ht
  cases out with
  | ok found =>
    obtain ⟨a', rest⟩ := found
    obtain ⟨taken, hrest, hx'⟩ := hx'
    obtain ⟨taken', hrest', hy⟩ := hy
    obtain rfl : taken = taken' := List.append_cancel_right (hrest.symm.trans hrest')
    obtain ⟨rfl, rfl⟩ := EStateM.Result.ok.inj (hx.symm.trans (hx' c.offset))
    exact ⟨taken, hrest, rfl, hy⟩
  | error failure =>
    obtain ⟨t, ht⟩ := hx' c.offset
    rw [hx] at ht
    cases ht

end Rereads

/-! ### Primitives -/

section Primitives

variable {s : List UInt8 → Prop}

theorem rereads_decodeText (hs : PassesOn s) (encoding : TextEncoding) :
    Rereads s (Primitive.decodeText encoding) (Primitive.decodeText encoding) := by
  refine Rereads.bind hs (Rereads.read takes_uvar) fun length => ?_
  refine Rereads.bind hs (Rereads.read (takes_take length)) fun bytes => ?_
  split
  · exact Rereads.pure _
  · exact Rereads.fail _

theorem rereads_primitive (hs : PassesOn s) (p : Primitive) : Rereads s p.decode p.decode := by
  cases p with
  | uint width order | single order | double order =>
    exact Rereads.bind hs (Rereads.read (takes_uint _ _)) fun _ => Rereads.pure _
  | int width order => exact Rereads.bind hs (Rereads.read (takes_int _ _)) fun _ => Rereads.pure _
  | bool => exact Rereads.bind hs (Rereads.read takes_byte) fun _ => Rereads.pure _
  | uvar | ivar => exact Rereads.bind hs (Rereads.read takes_uvar) fun _ => Rereads.pure _
  | string encoding =>
    exact Rereads.bind hs (rereads_decodeText hs encoding) fun _ => Rereads.pure _
  | json =>
    refine Rereads.bind hs (rereads_decodeText hs .utf8) fun text => ?_
    split
    · exact Rereads.pure _
    · exact Rereads.fail _
  | date =>
    refine Rereads.bind hs (Rereads.read (takes_int _ _)) fun millis => ?_
    split
    · exact Rereads.pure _
    · exact Rereads.fail _

end Primitives

/-! ### Layouts -/

namespace Codec

variable {decode decode' : Decoder} {minSize minSize' : TypeId → ℕ} {s : List UInt8 → Prop}

theorem rereads_decodeField (hs : PassesOn s) {field : FieldLayout}
    (h : ∀ id, field.reference? = some id → Rereads s (decode id) (decode' id)) (bits : List Bool) :
    Rereads s (decodeField decode bits field) (decodeField decode' bits field) := by
  obtain ⟨place, content⟩ := field
  cases content with
  | constant type constant verify =>
    refine Rereads.bind hs (Rereads.inside _ (h type rfl)) fun found => ?_
    dsimp only
    split
    · exact Rereads.fail _
    · exact Rereads.pure _
  | literal value => exact Rereads.pure _
  | value type presence =>
    cases presence with
    | none => exact Rereads.bind hs (Rereads.inside _ (h type rfl)) fun _ => Rereads.pure _
    | some bit =>
      simp only [decodeField]
      split
      · exact Rereads.bind hs (Rereads.inside _ (h type rfl)) fun _ => Rereads.pure _
      · exact Rereads.pure _

theorem rereads_decodeFields (hs : PassesOn s) {fields : List FieldLayout}
    (h : ∀ field ∈ fields, ∀ id, field.reference? = some id → Rereads s (decode id) (decode' id))
    (bits : List Bool) (g : Gathered) :
    Rereads s (decodeFields decode bits g fields) (decodeFields decode' bits g fields) := by
  induction fields generalizing g with
  | nil => exact Rereads.pure _
  | cons field rest ih =>
    refine Rereads.bind hs (rereads_decodeField hs (h field List.mem_cons_self) bits)
      fun value => ?_
    exact ih (fun other ho => h other (List.mem_cons_of_mem _ ho)) _

theorem rereads_decodeStruct (hs : PassesOn s) {l : StructLayout}
    (h : ∀ id ∈ (Layout.struct l).references, Rereads s (decode id) (decode' id)) :
    Rereads s (decodeStruct decode l) (decodeStruct decode' l) := by
  refine Rereads.bind hs (Rereads.read (takes_take _)) fun bitmap => ?_
  refine Rereads.bind hs (rereads_decodeFields hs (fun field hfield id hid => ?_) _ _) fun g => ?_
  · exact h id (List.mem_filterMap.2 ⟨field, hfield, hid⟩)
  · split <;> exact Rereads.pure _

theorem rereads_checkRoom (count least : ℕ) :
    Rereads s (checkRoom count least) (checkRoom count least) := by
  intro bytes _
  refine Or.inr ?_
  by_cases hroom : bytes.length < Arena.saturatingMul count least
  · have hmeets : Meets (checkRoom count least) bytes
        (.error fun offset => ⟨[], .unexpectedEnd (Arena.saturatingMul count least) offset⟩) := by
      intro offset
      rw [checkRoom_eq, if_pos hroom]
      exact ⟨_, rfl⟩
    exact ⟨_, hmeets, hmeets⟩
  · have hmeets : Meets (checkRoom count least) bytes (.ok ((), bytes)) := by
      refine ⟨[], rfl, fun offset => ?_⟩
      rw [checkRoom_eq, if_neg hroom]
      rfl
    exact ⟨_, hmeets, hmeets⟩

theorem rereads_decodeItems (hs : PassesOn s) {item item' : ℕ → Decoding Json}
    (h : ∀ position, Rereads s (item position) (item' position)) (count position : ℕ)
    (before : List Json) :
    Rereads s (decodeItems item count position before)
      (decodeItems item' count position before) := by
  induction count generalizing position before with
  | zero => exact Rereads.pure _
  | succ count ih => exact Rereads.bind hs (Rereads.inside _ (h position)) fun value => ih _ _

/-- The elements of an array may be decoded in another way in which each of them does the same. -/
theorem rereads_decodeArray (hs : PassesOn s) {a a' : ArrayLayout} (hsize : a'.size = a.size)
    (hnullable : a'.nullable = a.nullable)
    (h : Rereads s (elementDecoder decode a) (elementDecoder decode' a'))
    (hleast : elementMin minSize a = elementMin minSize' a') :
    Rereads s (decodeArray decode minSize a) (decodeArray decode' minSize' a') := by
  have hbits : Rereads s (decodeBits a) (decodeBits a') := by
    unfold decodeBits
    rw [hsize, hnullable]
    split
    · exact Rereads.bind hs (Rereads.read (takes_take _)) fun _ => Rereads.pure _
    · exact Rereads.pure _
  unfold decodeArray
  rw [hsize]
  refine Rereads.bind hs hbits fun bits => ?_
  have hcount : presentCount a' bits = presentCount a bits := by
    unfold presentCount
    rw [hsize]
  rw [hcount, hleast]
  refine Rereads.bind hs (rereads_checkRoom _ _) fun _ => ?_
  refine Rereads.bind hs (rereads_decodeItems hs (fun position => ?_) _ _ _)
    fun items => Rereads.pure _
  unfold decodeElement
  split
  · exact h
  · exact Rereads.pure _

theorem rereads_elementDecoder (hs : PassesOn s) (a : ArrayLayout)
    (h : Rereads s (decode a.element) (decode' a.element)) :
    Rereads s (elementDecoder decode a) (elementDecoder decode' a) := by
  unfold elementDecoder
  cases a.numeric with
  | some p => exact rereads_primitive hs p
  | none => exact h

theorem rereads_checkLimit (limit : Option ℕ) (count : ℕ) :
    Rereads s (checkLimit limit count) (checkLimit limit count) := by
  unfold checkLimit
  split
  · split
    · exact Rereads.fail _
    · exact Rereads.pure _
  · exact Rereads.pure _

theorem rereads_checkItems (least count : ℕ) :
    Rereads s (checkItems least count) (checkItems least count) := by
  unfold checkItems
  split
  · exact rereads_checkLimit _ _
  · exact rereads_checkRoom _ _

theorem rereads_decodeList (hs : PassesOn s) {element : TypeId}
    (h : Rereads s (decode element) (decode' element)) (hmin : minSize element = minSize' element)
    (maxLength : Option ℕ) :
    Rereads s (decodeList decode minSize element maxLength)
      (decodeList decode' minSize' element maxLength) := by
  unfold decodeList
  rw [hmin]
  refine Rereads.bind hs (Rereads.read takes_uvar) fun count => ?_
  refine Rereads.bind hs (rereads_checkLimit maxLength count) fun _ => ?_
  refine Rereads.bind hs (rereads_checkItems _ count) fun _ => ?_
  exact Rereads.bind hs (rereads_decodeItems hs (fun _ => h) _ _ _) fun items => Rereads.pure _

/-- A padded value is what its window holds. -/
theorem decodePadded_of_window {inner : TypeId} {size : ℕ} {c : Cursor}
    {window rest : List UInt8} {offset : ℕ}
    (h : read (Cursor.take size) c = .ok window ⟨rest, offset⟩) :
    decodePadded decode inner size c =
      match decode inner ⟨window, 0⟩ with
      | .ok value _ => .ok value ⟨rest, offset⟩
      | .error stop _ => .error stop ⟨rest, offset⟩ :=
  bind_of_ok (x := read (Cursor.take size)) h

/-- The window of a padded value is a part of the input, and is read from zero on wherever it
stands. -/
theorem rereads_decodePadded (hs : PassesOn s) {inner : TypeId} (size : ℕ)
    (h : Rereads s (decode inner) (decode' inner)) :
    Rereads s (decodePadded decode inner size) (decodePadded decode' inner size) := by
  intro bytes hbytes
  rcases Rereads.read (takes_take size) bytes hbytes with hstarves | ⟨out, htake, -⟩
  · exact Or.inl fun offset => (hstarves offset).bind (x := read (Cursor.take size)) _
  cases out with
  | error failure =>
    refine Or.inr ⟨.error failure, fun offset => ?_, fun offset => ?_⟩
    · exact (htake offset).imp fun _ hrun => bind_of_error (x := read (Cursor.take size)) hrun
    · exact (htake offset).imp fun _ hrun => bind_of_error (x := read (Cursor.take size)) hrun
  | ok found =>
    obtain ⟨window, rest⟩ := found
    obtain ⟨taken, hrest, htake⟩ := htake
    have hwindow : window <:+: bytes := by
      rw [show bytes = window ++ rest from (take_ok (read_ok_iff.1 (htake 0))).1]
      exact (List.prefix_append window rest).isInfix
    rcases h window (hs window bytes hwindow hbytes) with hstarves | ⟨out, hinner, hinner'⟩
    · refine Or.inl fun offset => ?_
      obtain ⟨t, ht⟩ := hstarves 0
      exact ⟨⟨rest, offset + taken.length⟩, by rw [decodePadded_of_window (htake offset), ht]⟩
    cases out with
    | ok found =>
      obtain ⟨value, rest'⟩ := found
      have hboth : ∀ {decode : Decoder}, Meets (decode inner) window (.ok (value, rest')) →
          Meets (decodePadded decode inner size) bytes (.ok (value, rest)) := by
        rintro decode ⟨_, -, hinner⟩
        refine ⟨taken, hrest, fun offset => ?_⟩
        rw [decodePadded_of_window (htake offset), hinner 0]
      exact Or.inr ⟨_, hboth hinner, hboth hinner'⟩
    | error failure =>
      have hboth : ∀ {decode : Decoder}, Meets (decode inner) window (.error failure) →
          Meets (decodePadded decode inner size) bytes (.error fun _ => failure 0) := by
        intro decode hinner offset
        obtain ⟨after, hafter⟩ := hinner 0
        rw [decodePadded_of_window (htake offset), hafter]
        exact ⟨_, rfl⟩
      exact Or.inr ⟨_, hboth hinner, hboth hinner'⟩

theorem rereads_decodeEnum (hs : PassesOn s) {e : EnumLayout}
    (h : ∀ id ∈ (Layout.enum e).references, Rereads s (decode id) (decode' id)) :
    Rereads s (decodeEnum decode e) (decodeEnum decode' e) := by
  refine Rereads.bind hs (h e.tag List.mem_cons_self) fun tag => ?_
  split
  · exact Rereads.fail _
  · next variant hfind =>
    have hmem := List.mem_map_of_mem (f := VariantLayout.payload) (List.mem_of_find?_eq_some hfind)
    refine Rereads.bind hs (Rereads.inside _ (h _ (List.mem_cons_of_mem _ hmem))) fun payload => ?_
    split
    · exact Rereads.pure _
    · exact Rereads.fail _

/-- **One level of a layout.** Only its references matter. -/
theorem rereads_decodeStep (hs : PassesOn s) {layout : Layout}
    (h : ∀ id ∈ layout.references, Rereads s (decode id) (decode' id))
    (hmin : ∀ id ∈ layout.references, minSize id = minSize' id) :
    Rereads s (decodeStep decode minSize layout) (decodeStep decode' minSize' layout) := by
  cases layout with
  | primitive p => exact rereads_primitive hs p
  | struct l => exact rereads_decodeStruct hs h
  | array a =>
    refine rereads_decodeArray hs rfl rfl (rereads_elementDecoder hs a (h _ List.mem_cons_self)) ?_
    unfold elementMin
    rw [hmin a.element List.mem_cons_self]
  | enum e => exact rereads_decodeEnum hs h
  | synonym target => exact h target List.mem_cons_self
  | list element maxLength =>
    exact rereads_decodeList hs (h _ List.mem_cons_self) (hmin _ List.mem_cons_self) maxLength
  | padded inner size => exact rereads_decodePadded hs size (h _ List.mem_cons_self)
  | bytes count => exact Rereads.bind hs (Rereads.read (takes_take count)) fun _ => Rereads.pure _

end Codec

/-! ### Levels -/

namespace Arena

variable {arena a b : Arena} {p : TypeId → Prop} {s : List UInt8 → Prop}

theorem decodeWithin_succ {id : TypeId} {type : CompiledType} (hid : arena.get? id = some type)
    (levels : ℕ) : arena.decodeWithin (levels + 1) id =
      Codec.decodeStep (arena.decodeWithin levels) arena.minSize type.layout := by
  rw [decodeWithin, hid]

theorem decodeWithin_of_empty {id : TypeId} (hid : arena.get? id = none) (levels : ℕ) :
    arena.decodeWithin (levels + 1) id = failWith (.unresolved id.index) := by
  rw [decodeWithin, hid]

/-- A decoding that succeeds is one of a type. -/
theorem exists_of_decodeWithin {levels : ℕ} {id : TypeId} {c after : Cursor} {value : Json}
    (h : arena.decodeWithin (levels + 1) id c = .ok value after) :
    ∃ type, arena.get? id = some type := by
  cases hid : arena.get? id with
  | some type => exact ⟨type, rfl⟩
  | none =>
    rw [decodeWithin_of_empty hid] at h
    cases h

theorem Agree.rereads_succ (hagree : Agree p a b) (hmin : ∀ id, p id → a.minSize id = b.minSize id)
    (hs : PassesOn s) {levels more : ℕ}
    (h : ∀ id, p id → Rereads s (a.decodeWithin levels id) (b.decodeWithin more id))
    {id : TypeId} (hid : p id) :
    Rereads s (a.decodeWithin (levels + 1) id) (b.decodeWithin (more + 1) id) := by
  have hget := hagree.get? id hid
  cases htype : a.get? id with
  | none =>
    rw [htype] at hget
    rw [decodeWithin_of_empty htype, decodeWithin_of_empty hget.symm]
    exact Rereads.fail _
  | some type =>
    rw [htype] at hget
    rw [decodeWithin_succ htype, decodeWithin_succ hget.symm]
    have hparts := hagree.closed id type hid htype
    exact Codec.rereads_decodeStep hs (fun part hpart => h part (hparts part hpart))
      fun part hpart => hmin part (hparts part hpart)

/-- More levels read the same, in any arena that agrees. -/
theorem Agree.rereads_decodeWithin (hagree : Agree p a b)
    (hmin : ∀ id, p id → a.minSize id = b.minSize id)
    {levels more : ℕ} (hle : levels ≤ more) {id : TypeId} (hid : p id) :
    Rereads (fun _ => True) (a.decodeWithin levels id) (b.decodeWithin more id) := by
  induction levels generalizing more id with
  | zero => exact Rereads.of_starves fun c => ⟨c, rfl⟩
  | succ levels ih =>
    obtain ⟨more, rfl⟩ : ∃ m, more = m + 1 := ⟨more - 1, by omega⟩
    exact hagree.rereads_succ hmin (fun _ _ _ _ => trivial) (fun id hid => ih (by omega) hid) hid

theorem rereads_more {levels more : ℕ} (hle : levels ≤ more) (id : TypeId) :
    Rereads (fun _ => True) (arena.decodeWithin levels id) (arena.decodeWithin more id) :=
  (Agree.refl arena).rereads_decodeWithin (fun _ _ => rfl) hle trivial

/-- If enough levels are known for all shorter inputs, as many more as there are slots, and one, are
enough for an input. -/
theorem rereads_of_shorter {bytes : List UInt8} {enough : ℕ}
    (h : ∀ levels id, Rereads (fun part => part.length < bytes.length)
      (arena.decodeWithin levels id) (arena.decodeWithin enough id)) (levels : ℕ) (id : TypeId) :
    Rereads (fun part => part <:+: bytes) (arena.decodeWithin levels id)
      (arena.decodeWithin (enough + (arena.size + 1)) id) := by
  have hmono :
      ∀ (k : ℕ) (id : TypeId), ¬Starves ⟨bytes, 0⟩ (arena.decodeWithin (enough + (k + 1)) id) →
      ¬Starves ⟨bytes, 0⟩ (arena.decodeWithin (enough + (k + 1 + 1)) id) :=
    fun k id hends => (rereads_more (Nat.le_succ (enough + (k + 1))) id).not_starves trivial hends 0
  -- the slots that end while nothing has been taken stop growing at some number of levels
  obtain ⟨k, hk, hstable⟩ := exists_stable ((List.range arena.size).map TypeId.mk) hmono
  have hpasses : PassesOn fun part => part <:+: bytes := fun _ _ hpart hwhole => hpart.trans hwhole
  have hall : ∀ bytes' : List UInt8, bytes' <:+: bytes → True := fun _ _ => trivial
  have hrun : ∀ levels id, Rereads (fun part => part <:+: bytes) (arena.decodeWithin levels id)
      (arena.decodeWithin (enough + (k + 1)) id) := by
    intro levels
    induction levels with
    | zero => exact fun _ => Rereads.of_starves fun c => ⟨c, rfl⟩
    | succ levels ih =>
      intro id
      have hsucc : Rereads (fun part => part <:+: bytes) (arena.decodeWithin (levels + 1) id)
          (arena.decodeWithin (enough + (k + 1) + 1) id) :=
        (Agree.refl arena).rereads_succ (fun _ _ => rfl) hpasses (fun id _ => ih id) trivial
      refine hsucc.of_ends ((rereads_more (Nat.le_succ (enough + (k + 1))) id).mono hall) ?_
      intro part hpart hends
      rcases Nat.lt_or_ge part.length bytes.length with hlt | hge
      · -- bytes are gone, so the known levels are enough
        have hless := (h (levels + 1) id).not_starves hlt hends 0
        exact (rereads_more (Nat.le_add_right enough (k + 1)) id).not_starves trivial hless 0
      · -- nothing is gone, so the slots count
        obtain rfl : part = bytes := hpart.eq_of_length (Nat.le_antisymm hpart.length_le hge)
        cases hid : arena.get? id with
        | some type =>
          have hslot : id ∈ (List.range arena.size).map TypeId.mk :=
            List.mem_map.2 ⟨id.index, List.mem_range.2 (lt_size_of_get? _ hid), rfl⟩
          exact hstable id hslot (hsucc.not_starves hpart hends 0)
        | none =>
          rw [← Nat.add_assoc, decodeWithin_of_empty hid]
          rintro ⟨t, ht⟩
          cases ht
  rw [List.length_map, List.length_range] at hk
  exact (hrun levels id).trans ((rereads_more (by omega) id).mono hall)

/-- As many levels as the length of the input asks for. -/
theorem rereads_of_length (count levels : ℕ) (id : TypeId) :
    Rereads (fun bytes => bytes.length < count) (arena.decodeWithin levels id)
      (arena.decodeWithin (count * (arena.size + 1)) id) := by
  induction count generalizing levels id with
  | zero => exact fun _ hbytes => absurd hbytes (Nat.not_lt_zero _)
  | succ count ih =>
    intro bytes hbytes
    -- for what is shorter the hypothesis has enough levels
    have hshorter : ∀ levels id, Rereads (fun part => part.length < bytes.length)
        (arena.decodeWithin levels id) (arena.decodeWithin (count * (arena.size + 1)) id) :=
      fun levels id => (ih levels id).mono fun part hpart => by omega
    -- and the slots are counted once more for the input itself
    rw [Nat.succ_mul]
    exact rereads_of_shorter hshorter levels id bytes (List.infix_refl _)

/-- **Enough levels.** What does not lack levels at some number of them is what `decode` does. -/
theorem rereads_decode (levels : ℕ) (id : TypeId) :
    Rereads (fun _ => True) (arena.decodeWithin levels id) (arena.decode id) :=
  fun bytes _ => rereads_of_length (bytes.length + 1) levels id bytes (Nat.lt_succ_self _)

/-- Decoding is the same in an arena that agrees. -/
theorem Agree.rereads_decode (hagree : Agree p a b)
    (hmin : ∀ id, p id → a.minSize id = b.minSize id) {id : TypeId} (hid : p id) :
    Rereads (fun _ => True) (a.decode id) (b.decode id) :=
  fun bytes hbytes => (hagree.rereads_decodeWithin hmin (Nat.le_refl _) hid).trans
    (Arena.rereads_decode (a.decodeLevels bytes.length) id) bytes hbytes

end Arena

end Wireform
