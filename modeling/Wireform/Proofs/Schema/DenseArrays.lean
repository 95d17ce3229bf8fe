import Wireform.Proofs.Codec.Matching
import Wireform.Proofs.Meaning.Order

/-!
# Arrays that read their numbers directly

When an array is compiled, the synonyms of its elements are followed once. If they end at a number,
the array keeps it and never looks at the type of its elements again. The slots on the way hold what
they held then in every later session, so encoding and decoding through the type of the elements
come to the same number, whatever was resolved in between.

* `Carries.encode_eq`, `Carries.decode_eq`: the codec of a type behind whose synonyms there is a
  number.
* `Arena.indirect`: the same types, where some arrays read their numbers through the type.
* `alike_indirect`: such an arena has the same codecs and the same lower bounds.
* `Reached.numeric_array`: **whether an array reads its numbers directly is of no account.**
-/

namespace Wireform

/-- A layout that refers to the slots to which it refers. -/
theorem Layout.map_self (layout : Layout) : (layout.map fun id => id) = layout := by
  have hfield : (FieldLayout.map fun id => id) = id := by
    funext field
    obtain ⟨place, content⟩ := field
    cases content <;> rfl
  have hvariant : (VariantLayout.map fun id => id) = id := rfl
  cases layout with
  | struct s => simp only [Layout.map, hfield, List.map_id]
  | enum e => simp only [Layout.map, hvariant, List.map_id]
  | _ => rfl

namespace Arena

variable {arena : Arena} {id : TypeId} {p : Primitive}

/-! ### Numbers behind synonyms -/

theorem Carries.peel? (h : arena.Carries id p) :
    ∃ type, arena.peel? id = some type ∧ type.layout = .primitive p := by
  obtain ⟨steps, type, hsteps, htype⟩ := h.exists_peelWithin?
  exact ⟨type, peel?_of_peelWithin? hsteps, htype⟩

/-- No chain of synonyms has more links than there are levels for any value and any input. -/
theorem Carries.codec_eq (h : arena.Carries id p) {levels : ℕ} (hlevels : arena.size + 1 ≤ levels) :
    arena.encodeWithin levels id = p.encode ∧ arena.decodeWithin levels id = p.decode := by
  obtain ⟨type, hpeel, htype⟩ := h.peel?
  exact codec_of_peelWithin? hpeel htype hlevels

theorem size_lt_encodeLevels (arena : Arena) (value : Json) :
    arena.size + 1 ≤ arena.encodeLevels value := by
  have hweight : 1 ≤ value.weight := by
    cases value <;> simp only [Json.weight] <;> omega
  have hslots : arena.size * 1 ≤ arena.size * (value.weight + arena.constantWeight) :=
    Nat.mul_le_mul_left _ (Nat.le_add_right_of_le hweight)
  unfold encodeLevels
  omega

theorem size_lt_decodeLevels (arena : Arena) (left : ℕ) :
    arena.size + 1 ≤ arena.decodeLevels left :=
  Nat.le_mul_of_pos_left _ (Nat.succ_pos left)

/-- **Encoding a number through its synonyms** gives the same bytes, and fails in the same way. -/
theorem Carries.encode_eq (h : arena.Carries id p) : arena.encode id = p.encode := by
  funext value
  have hwithin := (h.codec_eq (arena.size_lt_encodeLevels value)).1
  exact congrFun hwithin value

/-- **Decoding a number through its synonyms** takes the same bytes, and fails in the same way. -/
theorem Carries.decode_eq (h : arena.Carries id p) : arena.decode id = p.decode := by
  funext cursor
  have hwithin := (h.codec_eq (arena.size_lt_decodeLevels cursor.rest.length)).2
  exact congrFun hwithin cursor

/-! ### One array -/

variable {a : ArrayLayout}

/-- An array is encoded the same if it keeps the number of its elements and if it does not. -/
theorem Carries.encodeArray_eq (h : arena.Carries a.element p) (hp : a.numeric = some p) :
    Codec.encodeArray arena.encode { a with numeric := none } =
      Codec.encodeArray arena.encode a := by
  have helement : Codec.elementEncoder arena.encode { a with numeric := none } =
      Codec.elementEncoder arena.encode a := by
    simp only [Codec.elementEncoder, hp]
    exact h.encode_eq
  have hitem : Codec.encodeElement arena.encode { a with numeric := none } =
      Codec.encodeElement arena.encode a := by
    funext item
    simp only [Codec.encodeElement, helement]
  funext value
  simp only [Codec.encodeArray, hitem]
  rfl

/-- It is decoded the same, and as much room is asked for before. -/
theorem Carries.decodeArray_eq (h : arena.Carries a.element p) (hp : a.numeric = some p) :
    Codec.decodeArray arena.decode arena.minSize { a with numeric := none } =
      Codec.decodeArray arena.decode arena.minSize a := by
  have hroom : Codec.elementMin arena.minSize { a with numeric := none } =
      Codec.elementMin arena.minSize a := by
    simp only [Codec.elementMin, hp]
    exact h.minSize_eq
  have helement : Codec.elementDecoder arena.decode { a with numeric := none } =
      Codec.elementDecoder arena.decode a := by
    simp only [Codec.elementDecoder, hp]
    exact h.decode_eq
  have hitem : Codec.decodeElement arena.decode { a with numeric := none } =
      Codec.decodeElement arena.decode a := by
    funext bits position
    simp only [Codec.decodeElement, helement]
  simp only [Codec.decodeArray, hroom, hitem]
  rfl

/-! ### All arrays -/

/-- The same types, but in the chosen slots an array reads its numbers through the
type of its elements. -/
def indirect (chosen : TypeId → Bool) (arena : Arena) : Arena :=
  ⟨arena.slots.mapIdx fun index slot =>
    if chosen ⟨index⟩
      then slot.map fun type => { type with layout := type.layout.indirect } else slot⟩

variable (chosen : TypeId → Bool)

theorem size_indirect (arena : Arena) : (arena.indirect chosen).size = arena.size :=
  Array.size_mapIdx

theorem get?_indirect (arena : Arena) (id : TypeId) : (arena.indirect chosen).get? id =
    if chosen id then (arena.get? id).map fun type => { type with layout := type.layout.indirect }
    else arena.get? id := by
  unfold indirect get?
  rw [Array.getElem?_mapIdx]
  by_cases hchosen : chosen id
  · simp only [hchosen, if_true]
    cases arena.slots[id.index]? <;> rfl
  · simp only [hchosen]
    cases arena.slots[id.index]? <;> rfl

/-- A slot holds the same type, or one whose array reads numbers through the type of its
elements. -/
theorem exists_of_get?_indirect {type' : CompiledType}
    (h : (arena.indirect chosen).get? id = some type') :
    ∃ type, arena.get? id = some type ∧ type'.maxSize = type.maxSize ∧
      (type'.layout = type.layout ∨ type'.layout = type.layout.indirect) := by
  rw [get?_indirect] at h
  split at h
  · obtain ⟨type, htype, rfl⟩ := Option.map_eq_some_iff.1 h
    exact ⟨type, htype, rfl, .inr rfl⟩
  · exact ⟨type', h, rfl, .inl rfl⟩

theorem exists_get?_indirect {type : CompiledType} (h : arena.get? id = some type) :
    ∃ type', (arena.indirect chosen).get? id = some type' ∧
      type'.layout.indirect = type.layout.indirect := by
  rw [get?_indirect, h]
  by_cases hchosen : chosen id
  · refine ⟨{ type with layout := type.layout.indirect },
      by simp only [hchosen, if_true, Option.map_some], ?_⟩
    cases type.layout <;> rfl
  · exact ⟨type, by simp only [hchosen]; rfl, rfl⟩

theorem greatest_indirect (arena : Arena) : (arena.indirect chosen).greatest = arena.greatest := by
  funext id
  unfold greatest maxSize
  rw [get?_indirect]
  by_cases hchosen : chosen id
  · simp only [hchosen, if_true]
    cases arena.get? id <;> rfl
  · simp only [hchosen]
    rfl

/-- What is behind synonyms is behind them still. -/
theorem Carries.indirect (h : arena.Carries id p) : (arena.indirect chosen).Carries id p := by
  induction h with
  | primitive hid hl =>
    obtain ⟨found, hfound, hsame⟩ := exists_get?_indirect chosen hid
    rw [hl] at hsame
    rcases Layout.eq_or_array hsame with heq | ⟨a, numeric, heq, -⟩
    · exact .primitive hfound heq
    · cases heq
  | synonym hid hl _ ih =>
    obtain ⟨found, hfound, hsame⟩ := exists_get?_indirect chosen hid
    rw [hl] at hsame
    rcases Layout.eq_or_array hsame with heq | ⟨a, numeric, heq, -⟩
    · exact .synonym hfound heq ih
    · cases heq

/-- An array that keeps no number has none to answer for. -/
theorem Builds.indirect {layout : Layout} {size : Size} (h : arena.Builds layout size) :
    arena.Builds layout.indirect size where
  references := by
    intro part hpart
    refine h.references part ?_
    cases layout <;> exact hpart
  bound := by
    refine le_trans (le_of_eq ?_) h.bound
    cases layout <;> rfl
  numbered := by
    intro s hs
    refine h.numbered s ?_
    cases layout with
    | array a => cases hs
    | _ => exact hs
  numeric := by
    intro a q ha hq
    cases layout with
    | array a' =>
      obtain rfl := Layout.array.inj ha
      cases hq
    | _ => cases ha

/-- Types that are complete stay so. -/
theorem Grounded.indirect (h : arena.Grounded) : (arena.indirect chosen).Grounded where
  filled := by
    intro id hid
    rw [size_indirect] at hid
    obtain ⟨type, htype⟩ := h.filled id hid
    obtain ⟨type', htype', -⟩ := exists_get?_indirect chosen htype
    exact ⟨type', htype'⟩
  builds := by
    intro id type' htype'
    obtain ⟨type, htype, hmax, hlayout⟩ := exists_of_get?_indirect chosen htype'
    have hbuilds : arena.Builds type'.layout type'.maxSize := by
      rw [hmax]
      rcases hlayout with heq | heq
      · rw [heq]
        exact h.builds id type htype
      · rw [heq]
        exact (h.builds id type htype).indirect
    refine ⟨?_, ?_, hbuilds.numbered, fun a q ha hq => (hbuilds.numeric a q ha hq).indirect chosen⟩
    · rw [size_indirect]
      exact hbuilds.references
    · rw [greatest_indirect]
      exact hbuilds.bound

/-- **The two arenas match**, slot by slot and in both directions. -/
theorem matches_indirect (h : arena.Grounded) :
    Matches (fun id => id) (fun id => id.index < arena.size) arena (arena.indirect chosen) ∧
      Matches (fun id => id) (fun id => id.index < arena.size) (arena.indirect chosen) arena := by
  refine ⟨⟨?_, ?_, fun _ _ _ _ heq => heq⟩, ⟨?_, ?_, fun _ _ _ _ heq => heq⟩⟩
  · intro id hid
    obtain ⟨type, htype⟩ := h.filled id hid
    obtain ⟨type', htype', hsame⟩ := exists_get?_indirect chosen htype
    refine ⟨type, type', htype, htype', ?_⟩
    rw [hsame, Layout.map_self]
  · exact fun id type _ htype => (h.builds id type htype).references
  · intro id hid
    obtain ⟨type, htype⟩ := h.filled id hid
    obtain ⟨type', htype', hsame⟩ := exists_get?_indirect chosen htype
    refine ⟨type', type, htype', htype, ?_⟩
    rw [Layout.map_self]
    exact hsame.symm
  · intro id type' _ htype'
    have hparts := ((h.indirect chosen).builds id type' htype').references
    rwa [size_indirect] at hparts

/-- **The codecs are the same**, and the lower bounds too. -/
theorem alike_indirect (h : arena.Grounded) {id : TypeId} (hid : id.index < arena.size)
    (type type' : CompiledType) :
    TypeCodec.Alike ⟨arena, id, type⟩ ⟨arena.indirect chosen, id, type'⟩ ∧
      (arena.indirect chosen).minSize id = arena.minSize id := by
  obtain ⟨hthere, hback⟩ := matches_indirect chosen h
  have hother := h.indirect chosen
  have hencode : ∀ value buffer,
      ending (TypeCodec.encodeInto ⟨arena.indirect chosen, id, type'⟩ value) buffer =
      ending (TypeCodec.encodeInto ⟨arena, id, type⟩ value) buffer := by
    intro value
    exact (hback.repeats_encode hother h hid value).ending_eq
      (hthere.repeats_encode h hother hid value)
  have hdecode : ∀ bytes, TypeCodec.decodePrefix ⟨arena.indirect chosen, id, type'⟩ bytes =
      TypeCodec.decodePrefix ⟨arena, id, type⟩ bytes := by
    intro bytes
    have hto := hthere.rereads_decode h hother hid
    have hfrom := hback.rereads_decode hother h hid
    rw [TypeCodec.decodePrefix_eq, TypeCodec.decodePrefix_eq, hfrom.ending_eq hto trivial]
  exact ⟨⟨hencode, TypeCodec.encode_congr hencode, hdecode, TypeCodec.decode_congr hdecode⟩,
    hthere.minSize_eq hid⟩

end Arena

namespace Schema

variable {definitions : List (String × Definition)} {options : Options} {schema : Schema}

/-- **Whether an array reads its numbers directly is of no account**, in every schema that can be
reached. The type of the elements encodes and decodes as the number does and has its lower bound;
so does the array, `null` or not, if it does not keep the number; and so does every type,
whichever arrays do not. -/
theorem Reached.numeric_array (h : Reached definitions options schema) {id : TypeId}
    {type : CompiledType} {a : ArrayLayout} {p : Primitive}
    (hid : schema.session.arena.get? id = some type) (ha : type.layout = .array a)
    (hp : a.numeric = some p) :
    (schema.session.arena.encode a.element = p.encode ∧
      schema.session.arena.decode a.element = p.decode ∧
      schema.session.arena.minSize a.element = p.minSize) ∧
    (Codec.encodeArray schema.session.arena.encode { a with numeric := none } =
        Codec.encodeArray schema.session.arena.encode a ∧
      Codec.decodeArray schema.session.arena.decode schema.session.arena.minSize
        { a with numeric := none } =
        Codec.decodeArray schema.session.arena.decode schema.session.arena.minSize a) ∧
    ∀ (chosen : TypeId → Bool) other codec, schema.codec? other = some codec →
      codec.Alike { codec with arena := schema.session.arena.indirect chosen } ∧
      (schema.session.arena.indirect chosen).minSize other =
        schema.session.arena.minSize other := by
  have hcarries := (h.grounded.builds id type hid).numeric a p ha hp
  refine ⟨⟨hcarries.encode_eq, hcarries.decode_eq, hcarries.minSize_eq⟩,
    ⟨hcarries.encodeArray_eq hp, hcarries.decodeArray_eq hp⟩, ?_⟩
  intro chosen other codec hcodec
  obtain ⟨found, hfound, rfl⟩ := codec?_eq hcodec
  exact Arena.alike_indirect chosen h.grounded (Arena.lt_size_of_get? _ hfound) _ _

/-- Readings, some of which are missing. The type of one is a number behind two synonyms. -/
def readings : List (String × Definition) :=
  [("Readings",
    .struct
    (.object
      [.typed (some "levels") (.array (TypeRef.named "Level").orNull [.number (.ofNat 9)])])),
    ("Level", .synonym (.named "Depth")), ("Depth", .synonym (.named "u16"))]

/-- Their schema. -/
def readingsSchema : Schema := (compile readings {}).toOption.get (by decide +kernel)

theorem reached_readings : Reached readings {} readingsSchema := .compile (eq_ok_get _)

/-- The array in a slot with the number that it reads directly. -/
def numericArray? (arena : Arena) (id : TypeId) : Option (ArrayLayout × Primitive) :=
  match (arena.get? id).map CompiledType.layout with
  | some (.array a) => a.numeric.map fun p => (a, p)
  | _ => none

theorem exists_of_numericArray? {arena : Arena} {id : TypeId} {a : ArrayLayout} {p : Primitive}
    (h : numericArray? arena id = some (a, p)) :
    ∃ type, arena.get? id = some type ∧ type.layout = .array a ∧ a.numeric = some p := by
  unfold numericArray? at h
  split at h
  · next a' ha =>
    obtain ⟨type, htype, hlayout⟩ := Option.map_eq_some_iff.1 ha
    obtain ⟨q, hq, heq⟩ := Option.map_eq_some_iff.1 h
    obtain ⟨rfl, rfl⟩ := Prod.mk.inj heq
    exact ⟨type, htype, hlayout, hq⟩
  · cases h

theorem readings_numeric : ∃ schema type a, Reached readings {} schema ∧
    schema.session.arena.get? ⟨32⟩ = some type ∧ type.layout = .array a ∧
    a.numeric = some (.uint .w16 .big) ∧ a.nullable = true ∧ a.element = ⟨30⟩ ∧
    schema.session.arena.decode ⟨30⟩ = (Primitive.uint .w16 .big).decode ∧
    schema.session.arena.minSize ⟨30⟩ = 2 := by
  have hruns :
      ((numericArray? (readingsSchema.resolve "[Depth; 2]").2.session.arena ⟨32⟩).any fun (a, p) =>
      decide (a.nullable = true ∧ a.element = ⟨30⟩ ∧ p = .uint .w16 .big)) =
        true := by decide +kernel
  obtain ⟨⟨a, p⟩, hslot, hruns⟩ := (Option.any_eq_true _ _).1 hruns
  obtain ⟨hnullable, helement, hp⟩ := of_decide_eq_true hruns
  have h : Reached readings {} (readingsSchema.resolve "[Depth; 2]").2 :=
    .resolve reached_readings _
  obtain ⟨type, htype, ha, hnumeric⟩ := exists_of_numericArray? hslot
  obtain ⟨⟨-, hdecode, hmin⟩, -⟩ := h.numeric_array htype ha hnumeric
  rw [helement] at hdecode hmin
  rw [hp] at hnumeric hdecode hmin
  exact ⟨_, type, a, h, htype, ha, hnumeric, hnullable, helement, hdecode, hmin⟩

end Schema

end Wireform
