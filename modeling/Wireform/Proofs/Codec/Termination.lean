import Wireform.Proofs.Codec.Consumption
import Wireform.Proofs.Layout.Containment

/-!
# Decoding comes to an end

Levels are counted down only where decoding enters a type. Either something has been taken
off the input since the type around it was entered, or the type is one of those that are
entered at once (`Layout.entered`). If no type is entered again before anything has been
taken, the types that can be entered at once from a given one are fewer with each step. So
the bytes left and, among equals, those types bound the levels.

* `ends_decodeStep`: one level of a layout ends if its parts do, those that are entered only
  behind some bytes with fewer bytes left.
* `Arena.Grounded.ends_decode`: **decoding ends**, if no type is entered again at once.
-/

namespace Wireform

/-- The types that decoding enters before it has taken anything: the mandatory parts, the tag of an
enum and, if tags may have no bytes, the payloads behind it. -/
def Layout.entered (minSize : TypeId → ℕ) : Layout → List TypeId
  | .enum e => e.tag :: if minSize e.tag = 0 then e.variants.map VariantLayout.payload else []
  | layout => layout.mandatory

theorem Layout.mem_references_of_entered {minSize : TypeId → ℕ} {layout : Layout} {id : TypeId}
    (h : id ∈ layout.entered minSize) : id ∈ layout.references := by
  cases layout with
  | enum e =>
    rcases List.mem_cons.1 h with rfl | h
    · exact List.mem_cons_self
    · split at h
      · exact List.mem_cons_of_mem _ h
      · cases h
  | primitive | struct | array | synonym | list | padded | bytes =>
    exact Arena.mem_references_of_mandatory h

/-- With fewer than `n` bytes left, `x` has the levels that it needs, and it adds no bytes. -/
def Ends {α : Type} (n : ℕ) (x : Decoding α) : Prop :=
  ∀ c, c.rest.length < n →
    Ensures c x (fun _ after => after.rest.length ≤ c.rest.length) fun stop _ => stop ≠ .outOfFuel

namespace Ends

variable {α β : Type} {n : ℕ} {x : Decoding α}

theorem pure (a : α) : Ends n (Pure.pure a) := fun _ _ => Nat.le_refl _

theorem fail (cause : CodecError) : Ends n (failWith (α := α) cause) := fun _ _ heq => nomatch heq

/-- What follows may use that the first step has had its result. -/
theorem bind_of_run {f : α → Decoding β} (hx : Ends n x)
    (hf : ∀ c a mid, c.rest.length < n → x c = .ok a mid → Ends n (f a)) : Ends n (x >>= f) := by
  intro c hc
  have hfirst := hx c hc
  unfold Ensures at hfirst
  split at hfirst
  · next a mid hrun =>
    unfold Ensures
    rw [bind_of_ok hrun]
    exact Ensures.mono (hf c a mid hc hrun mid (hfirst.trans_lt hc))
      (fun _ _ h => h.trans hfirst) fun _ _ h => h
  · next stop mid hrun =>
    unfold Ensures
    rwa [bind_of_error hrun]

theorem bind {f : α → Decoding β} (hx : Ends n x) (hf : ∀ a, Ends n (f a)) : Ends n (x >>= f) :=
  hx.bind_of_run fun _ a _ _ _ => hf a

/-- What follows a step that takes something has fewer bytes left. -/
theorem bind_consumes {f : α → Decoding β} (hx : Ends (n + 1) x) (htakes : Consumes 1 x)
    (hf : ∀ a, Ends n (f a)) : Ends (n + 1) (x >>= f) := by
  intro c hc
  have hfirst := hx c hc
  unfold Ensures at hfirst
  split at hfirst
  · next a mid hrun =>
    obtain ⟨taken, hrest, htaken, -⟩ := htakes c a mid hrun
    have hlength : c.rest.length = taken.length + mid.rest.length := by
      rw [hrest, List.length_append]
    have hpos : 1 ≤ taken.length := by exact_mod_cast htaken
    unfold Ensures
    rw [bind_of_ok hrun]
    exact Ensures.mono (hf a mid (by omega)) (fun _ _ h => h.trans hfirst) fun _ _ h => h
  · next stop mid hrun =>
    unfold Ensures
    rwa [bind_of_error hrun]

theorem read {x : Reading α} (h : Takes x) : Ends n (Wireform.read x) := by
  intro c _
  unfold Ensures Wireform.read
  cases hrun : x c with
  | ok a after =>
    obtain ⟨taken, hrest, -⟩ := h c a after hrun
    change after.rest.length ≤ c.rest.length
    rw [hrest, List.length_append]
    exact Nat.le_add_left _ _
  | error short after => exact fun heq => nomatch heq

theorem inside (step : PathStep) (h : Ends n x) : Ends n (Wireform.inside step x) := by
  intro c hc
  have hx := h c hc
  unfold Ensures Wireform.inside at *
  cases hrun : x c with
  | ok a after => rwa [hrun] at hx
  | error stop after =>
    rw [hrun] at hx
    cases stop with
    | failure => exact fun heq => nomatch heq
    | outOfFuel => exact hx

end Ends

theorem ends_decodeText {n : ℕ} (encoding : TextEncoding) :
    Ends n (Primitive.decodeText encoding) := by
  refine (Ends.read takes_uvar).bind fun length => ?_
  refine (Ends.read (takes_take length)).bind fun bytes => ?_
  split
  · exact Ends.pure _
  · exact Ends.fail _

theorem ends_primitive {n : ℕ} (p : Primitive) : Ends n p.decode := by
  cases p with
  | uint width order | single order | double order =>
    exact (Ends.read (takes_uint _ _)).bind fun _ => Ends.pure _
  | int width order => exact (Ends.read (takes_int _ _)).bind fun _ => Ends.pure _
  | bool => exact (Ends.read takes_byte).bind fun _ => Ends.pure _
  | uvar | ivar => exact (Ends.read takes_uvar).bind fun _ => Ends.pure _
  | string encoding => exact (ends_decodeText encoding).bind fun _ => Ends.pure _
  | json =>
    refine (ends_decodeText .utf8).bind fun text => ?_
    split
    · exact Ends.pure _
    · exact Ends.fail _
  | date =>
    refine (Ends.read (takes_int _ _)).bind fun millis => ?_
    split
    · exact Ends.pure _
    · exact Ends.fail _

/-! ### Layouts -/

namespace Codec

variable {decode : Decoder} {minSize : TypeId → ℕ} {n : ℕ}

/-- A field is entered if it is mandatory or a bit is set. -/
theorem ends_decodeField {bits : List Bool} {field : FieldLayout}
    (h : ∀ id, field.reference? = some id → field.mandatory? = some id ∨ (∃ bit, isSet bits bit) →
      Ends n (decode id)) : Ends n (decodeField decode bits field) := by
  obtain ⟨place, content⟩ := field
  cases content with
  | constant type constant verify =>
    refine ((h type rfl (Or.inl rfl)).inside _).bind fun found => ?_
    dsimp only
    split
    · exact Ends.fail _
    · exact Ends.pure _
  | literal value => exact Ends.pure _
  | value type presence =>
    cases presence with
    | none => exact ((h type rfl (Or.inl rfl)).inside _).bind fun _ => Ends.pure _
    | some bit =>
      simp only [decodeField]
      split
      · next hset => exact ((h type rfl (Or.inr ⟨bit, hset⟩)).inside _).bind fun _ => Ends.pure _
      · exact Ends.pure _

theorem ends_decodeFields {bits : List Bool} {fields : List FieldLayout}
    (h : ∀ field ∈ fields, ∀ id, field.reference? = some id →
      field.mandatory? = some id ∨ (∃ bit, isSet bits bit) → Ends n (decode id)) (g : Gathered) :
    Ends n (decodeFields decode bits g fields) := by
  induction fields generalizing g with
  | nil => exact Ends.pure _
  | cons field rest ih =>
    refine (ends_decodeField (h field List.mem_cons_self)).bind fun value => ?_
    exact ih (fun other ho => h other (List.mem_cons_of_mem _ ho)) _

/-- Fields that are there by a bit are entered behind the bitmap. -/
theorem ends_decodeStruct {s : StructLayout}
    (hall : ∀ id ∈ (Layout.struct s).references, Ends n (decode id))
    (hnow : ∀ id ∈ (Layout.struct s).mandatory, Ends (n + 1) (decode id)) :
    Ends (n + 1) (decodeStruct decode s) := by
  have hbitmap : Ends (n + 1) (read (Cursor.take s.bitmapBytes)) := Ends.read (takes_take _)
  unfold decodeStruct
  rcases Nat.eq_zero_or_pos s.bitmapBytes with hzero | hpos
  · refine hbitmap.bind_of_run fun c bitmap mid _ hrun => ?_
    -- without a bitmap no bit is set
    obtain rfl : bitmap = [] := by
      rw [read_ok_iff] at hrun
      exact List.eq_nil_of_length_eq_zero ((take_ok hrun).2.trans hzero)
    refine (ends_decodeFields (fun field hfield id _ hentered => ?_) _).bind fun g => ?_
    · rcases hentered with hmandatory | ⟨bit, hset⟩
      · exact hnow id (List.mem_filterMap.2 ⟨field, hfield, hmandatory⟩)
      · cases hset
    · split <;> exact Ends.pure _
  · have htakes : Consumes 1 (read (Cursor.take s.bitmapBytes)) :=
      (consumes_take s.bitmapBytes).read.mono (by exact_mod_cast hpos)
    refine hbitmap.bind_consumes htakes fun bitmap => ?_
    refine (ends_decodeFields (fun field hfield id hid _ => ?_) _).bind fun g => ?_
    · exact hall id (List.mem_filterMap.2 ⟨field, hfield, hid⟩)
    · split <;> exact Ends.pure _

theorem ends_checkRoom (count least : ℕ) : Ends n (checkRoom count least) := by
  intro c _
  unfold Ensures
  rw [checkRoom_eq]
  by_cases hshort : c.rest.length < Arena.saturatingMul count least
  · rw [if_pos hshort]
    exact fun heq => nomatch heq
  · rw [if_neg hshort]

theorem ends_checkLimit (limit : Option ℕ) (count : ℕ) : Ends n (checkLimit limit count) := by
  unfold checkLimit
  split
  · split
    · exact Ends.fail _
    · exact Ends.pure _
  · exact Ends.pure _

theorem ends_checkItems (least count : ℕ) : Ends n (checkItems least count) := by
  unfold checkItems
  split
  · exact ends_checkLimit _ _
  · exact ends_checkRoom _ _

/-- No items need nothing of their decoder. -/
theorem ends_decodeItems {item : ℕ → Decoding Json} {count : ℕ}
    (h : 0 < count → ∀ position, Ends n (item position)) (position : ℕ) (before : List Json) :
    Ends n (decodeItems item count position before) := by
  induction count generalizing position before with
  | zero => exact Ends.pure _
  | succ count ih =>
    have hitem := h (Nat.succ_pos count)
    exact ((hitem position).inside _).bind fun value => ih (fun _ => hitem) _ _

theorem ends_elements {a : ArrayLayout} (h : 0 < a.size → Ends n (decode a.element))
    (bits : Option (List Bool)) : Ends n (do
      checkRoom (presentCount a bits) (elementMin minSize a)
      return Json.array (← decodeItems (decodeElement decode a bits) a.size 0 [])) := by
  refine (ends_checkRoom _ _).bind fun _ => ?_
  refine (ends_decodeItems (fun hpos position => ?_) _ _).bind fun _ => Ends.pure _
  unfold decodeElement elementDecoder
  split
  · split
    · exact ends_primitive _
    · exact h hpos
  · exact Ends.pure _

/-- Elements that may be `null` are entered behind the bitmap. -/
theorem ends_decodeArray {a : ArrayLayout} (hall : Ends n (decode a.element))
    (hnow : ∀ id ∈ (Layout.array a).mandatory, Ends (n + 1) (decode id)) :
    Ends (n + 1) (decodeArray decode minSize a) := by
  unfold decodeArray decodeBits
  cases hnullable : a.nullable with
  | false =>
    simp only [Bool.false_eq_true, if_false, pure_bind]
    refine ends_elements (fun hpos => hnow a.element ?_) none
    simp only [Layout.mandatory, hnullable, hpos, and_self, if_true, List.mem_singleton]
  | true =>
    simp only [if_true, bind_assoc, pure_bind]
    rcases Nat.eq_zero_or_pos a.size with hzero | hpos
    · refine (Ends.read (takes_take _)).bind fun bitmap => ?_
      exact ends_elements (fun hpos => by omega) _
    · have hlength : 1 ≤ bitmapLength a.size := by
        unfold bitmapLength
        omega
      have htakes : Consumes 1 (read (Cursor.take (bitmapLength a.size))) :=
        (consumes_take _).read.mono (by exact_mod_cast hlength)
      exact (Ends.read (takes_take _)).bind_consumes htakes
        fun bitmap => ends_elements (fun _ => hall) _

theorem ends_decodeList {element : TypeId} (maxLength : Option ℕ) (h : Ends n (decode element)) :
    Ends (n + 1) (decodeList decode minSize element maxLength) := by
  refine (Ends.read takes_uvar).bind_consumes consumes_uvar.read fun count => ?_
  refine (ends_checkLimit maxLength count).bind fun _ => ?_
  refine (ends_checkItems _ count).bind fun _ => ?_
  exact (ends_decodeItems (fun _ _ => h) _ _).bind fun _ => Ends.pure _

/-- The window of a padded value may be all that is left. -/
theorem ends_decodePadded {inner : TypeId} (size : ℕ) (h : Ends n (decode inner)) :
    Ends n (decodePadded decode inner size) := by
  refine (Ends.read (takes_take size)).bind_of_run fun c window mid hc hrun => ?_
  have hlength : window.length < n := by
    rw [(take_ok (read_ok_iff.1 hrun)).1, List.length_append] at hc
    omega
  intro outer _
  have hinner := h (Cursor.ofBytes window) hlength
  unfold Ensures at *
  cases hvalue : decode inner (Cursor.ofBytes window) with
  | ok value after => exact Nat.le_refl _
  | error stop after =>
    rw [hvalue] at hinner
    exact hinner

/-- Reads the payload behind a tag. -/
def decodeVariant (decode : Decoder) (e : EnumLayout) (tag : Json) : Decoding Json :=
  match e.variants.find? fun variant => variant.tag.agree tag with
  | none => failWith (.unknownVariant tag)
  | some variant => do
    let payload ← inside (.variant variant.name) (decode variant.payload)
    match withDiscriminant e variant payload with
    | .ok value => return value
    | .error cause => failWith cause

/-- The payload is entered behind the tag, which may have no bytes. -/
theorem ends_decodeEnum {e : EnumLayout}
    (hall : ∀ id ∈ (Layout.enum e).references, Ends n (decode id))
    (hnow : ∀ id ∈ (Layout.enum e).entered minSize, Ends (n + 1) (decode id))
    (htag : Consumes (minSize e.tag) (decode e.tag)) : Ends (n + 1) (decodeEnum decode e) := by
  have hrest : ∀ m, (∀ variant ∈ e.variants, Ends m (decode variant.payload)) → ∀ tag,
      Ends m (decodeVariant decode e tag) := by
    intro m h tag
    unfold decodeVariant
    split
    · exact Ends.fail _
    · next variant hfind =>
      refine ((h variant (List.mem_of_find?_eq_some hfind)).inside _).bind fun payload => ?_
      split
      · exact Ends.pure _
      · exact Ends.fail _
  have hfirst : Ends (n + 1) (decode e.tag) := hnow e.tag List.mem_cons_self
  rcases Nat.eq_zero_or_pos (minSize e.tag) with hzero | hpos
  · refine hfirst.bind fun tag => hrest (n + 1) (fun variant hvariant => hnow _ ?_) tag
    refine List.mem_cons_of_mem _ ?_
    rw [if_pos hzero]
    exact List.mem_map_of_mem hvariant
  · refine hfirst.bind_consumes (htag.mono (by exact_mod_cast hpos)) fun tag => ?_
    exact hrest n
      (fun variant hvariant => hall _ (List.mem_cons_of_mem _ (List.mem_map_of_mem hvariant))) tag

/-- **One level of a layout.** -/
theorem ends_decodeStep {layout : Layout} (hall : ∀ id ∈ layout.references, Ends n (decode id))
    (hnow : ∀ id ∈ layout.entered minSize, Ends (n + 1) (decode id))
    (htakes : ∀ id, Consumes (minSize id) (decode id)) :
    Ends (n + 1) (decodeStep decode minSize layout) := by
  cases layout with
  | primitive p => exact ends_primitive p
  | struct s => exact ends_decodeStruct hall hnow
  | array a => exact ends_decodeArray (hall a.element (List.mem_singleton_self _)) hnow
  | enum e => exact ends_decodeEnum hall hnow (htakes e.tag)
  | synonym target => exact hnow target (List.mem_singleton_self _)
  | list element maxLength =>
    exact ends_decodeList maxLength (hall element (List.mem_singleton_self _))
  | padded inner size => exact ends_decodePadded size (hnow inner (List.mem_singleton_self _))
  | bytes count => exact (Ends.read (takes_take count)).bind fun _ => Ends.pure _

end Codec

/-! ### Levels -/

namespace Arena

open Relation

/-- Decoding a type enters another one before it has taken anything. -/
def Enters (arena : Arena) (part id : TypeId) : Prop :=
  ∃ type, arena.get? id = some type ∧ part ∈ type.layout.entered arena.minSize

variable {arena : Arena}

open Classical in
/-- The number of slots that can be entered from a given one before anything has been taken. -/
noncomputable def below (arena : Arena) (id : TypeId) : ℕ :=
  ((Finset.range arena.size).filter fun index => TransGen arena.Enters ⟨index⟩ id).card

theorem below_le_size (arena : Arena) (id : TypeId) : arena.below id ≤ arena.size := by
  classical
  exact (Finset.card_filter_le _ _).trans (Finset.card_range _).le

/-- From a slot that is entered fewer ones can be entered, if none is entered again. -/
theorem below_lt {part id : TypeId} (hfinite : ∀ id, ¬TransGen arena.Enters id id)
    (h : arena.Enters part id) (hlt : part.index < arena.size) :
    arena.below part < arena.below id := by
  classical
  refine Finset.card_lt_card ⟨fun index hindex => ?_, fun hsub => ?_⟩
  · rw [Finset.mem_filter] at hindex ⊢
    exact ⟨hindex.1, hindex.2.tail h⟩
  · have hpart := hsub (Finset.mem_filter.2 ⟨Finset.mem_range.2 hlt, TransGen.single h⟩)
    exact hfinite part (Finset.mem_filter.1 hpart).2

namespace Grounded

variable (h : arena.Grounded)

include h

/-- Each byte left counts as many levels as there are slots. -/
theorem ends_decodeWithin (hfinite : ∀ id, ¬TransGen arena.Enters id id)
    (levels n : ℕ) {id : TypeId} (hid : id.index < arena.size)
    (hlevels : n * (arena.size + 1) + arena.below id < levels) :
    Ends (n + 1) (arena.decodeWithin levels id) := by
  induction levels generalizing n id with
  | zero => omega
  | succ levels ih =>
    obtain ⟨type, htype⟩ := h.filled id hid
    have hreferences := (h.builds id type htype).references
    rw [decodeWithin_succ htype]
    refine Codec.ends_decodeStep (fun part hpart => ?_) (fun part hpart => ?_)
      fun part => (h.consumes levels part).mono (minSize_le_least part)
    · cases n with
      | zero => exact fun c hc => absurd hc (Nat.not_lt_zero _)
      | succ n =>
        -- with a byte less, any part has its levels
        refine ih n (hreferences part hpart) ?_
        have := below_le_size arena part
        rw [Nat.add_mul, Nat.one_mul] at hlevels
        omega
    · have hlt := hreferences part (Layout.mem_references_of_entered hpart)
      refine ih n hlt ?_
      have := below_lt hfinite ⟨type, htype, hpart⟩ hlt
      omega

/-- **Decoding ends**, if no type is entered again at once. -/
theorem ends_decode (hfinite : ∀ id, ¬TransGen arena.Enters id id) {id : TypeId}
    (hid : id.index < arena.size) (c : Cursor) :
    Ensures c (arena.decode id) (fun _ _ => True) fun stop _ => stop ≠ .outOfFuel := by
  have hlevels : c.rest.length * (arena.size + 1) + arena.below id <
      arena.decodeLevels c.rest.length := by
    have := below_le_size arena id
    rw [decodeLevels, Nat.add_mul, Nat.one_mul]
    omega
  exact Ensures.mono (h.ends_decodeWithin hfinite _ _ hid hlevels c (Nat.lt_succ_self _))
    (fun _ _ _ => trivial) fun _ _ hstop => hstop

end Grounded

/-- An enum that is its own tag is entered again and again: no number of levels is enough, and
nothing is ever taken. -/
theorem decodeWithin_ownTag {id : TypeId} {type : CompiledType} {e : EnumLayout}
    (hid : arena.get? id = some type) (hl : type.layout = .enum e) (htag : e.tag = id) (levels : ℕ)
    (c : Cursor) : arena.decodeWithin levels id c = .error .outOfFuel c := by
  induction levels with
  | zero => rfl
  | succ levels ih =>
    rw [decodeWithin_succ hid, hl, Codec.decodeStep, Codec.decodeEnum, htag]
    exact bind_of_error ih

/-- Outside enums only mandatory parts are entered at once, so a type that is entered again lies on
a circle with an enum on it. -/
theorem Acyclic.not_enters_self (h : arena.Acyclic)
    (henum : ∀ id type e, arena.get? id = some type → type.layout = .enum e →
      ¬TransGen arena.Enters id id)
    (id : TypeId) : ¬TransGen arena.Enters id id := by
  intro hself
  have hstep : ∀ {part around : TypeId}, arena.Enters part around → arena.PartOf part around ∨
      ∃ type e, arena.get? around = some type ∧ type.layout = .enum e := by
    rintro part around ⟨type, htype, hpart⟩
    cases hl : type.layout with
    | enum e => exact Or.inr ⟨type, e, htype, hl⟩
    | primitive | struct | array | synonym | list | padded | bytes =>
      rw [hl] at hpart
      exact Or.inl ⟨type, htype, hl ▸ hpart⟩
  have hpath : ∀ around, TransGen arena.Enters id around → TransGen arena.PartOf id around ∨
      ∃ found type e, arena.get? found = some type ∧ type.layout = .enum e ∧
        TransGen arena.Enters id found ∧ ReflTransGen arena.Enters found around := by
    intro around hpath
    induction hpath with
    | single hfirst =>
      rcases hstep hfirst with hpart | ⟨type, e, htype, hl⟩
      · exact Or.inl (.single hpart)
      · exact Or.inr ⟨_, type, e, htype, hl, .single hfirst, .refl⟩
    | tail hbefore hlast ih =>
      rcases hstep hlast with hpart | ⟨type, e, htype, hl⟩
      · rcases ih with hparts | ⟨found, type, e, htype, hl, hup, hdown⟩
        · exact Or.inl (hparts.tail hpart)
        · exact Or.inr ⟨found, type, e, htype, hl, hup, hdown.tail hlast⟩
      · exact Or.inr ⟨_, type, e, htype, hl, hbefore.tail hlast, .refl⟩
  rcases hpath id hself with hparts | ⟨found, type, e, htype, hl, hup, hdown⟩
  · exact h id hparts
  · exact henum found type e htype hl (hup.trans_right hdown)

end Arena

end Wireform
