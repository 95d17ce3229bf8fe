import Wireform.Proofs.Codec.DecodeLevels
import Wireform.Proofs.Layout.Matching

/-!
# Codecs of arenas that match

Encoding and decoding ask of a slot only what it holds. So the codec of a slot is that of the slot
that it matches in another arena. Where one of the two reads the numbers of an array directly and
the other one through their type, some more levels make up for the difference.

* `encodeStep_map`, `decodeStep_map`: one level of a layout that refers to other slots.
* `Matches.repeats_encode`, `Matches.rereads_decode`: encoding and decoding are the same.
-/

namespace Wireform

/-- Two layouts that differ in how arrays read their numbers are the same or such arrays. -/
theorem Layout.eq_or_array {layout layout' : Layout} (h : layout'.indirect = layout.indirect) :
    layout' = layout ∨ ∃ a numeric, layout = .array a ∧ layout' = .array { a with numeric } := by
  cases layout with
  | array a =>
    cases layout' with
    | array a' =>
      obtain ⟨element, size, nullable, numeric⟩ := a
      obtain ⟨element', size', nullable', numeric'⟩ := a'
      obtain ⟨rfl, rfl, rfl, -⟩ := ArrayLayout.mk.inj (Layout.array.inj h)
      exact Or.inr ⟨_, numeric', rfl, rfl⟩
    | _ => cases h
  | _ => cases layout' <;> first | cases h <;> done | exact Or.inl h

namespace Codec

variable (f : TypeId → TypeId)

/-! ### Layouts that refer to other slots -/

theorem encodeField_map (encode : Encoder) (value : Json) (field : FieldLayout) :
    encodeField encode value (field.map f) = encodeField (fun id => encode (f id)) value field := by
  obtain ⟨place, content⟩ := field
  cases content <;> rfl

theorem encodeStruct_map (encode : Encoder) (s : StructLayout) (value : Json) :
    encodeStruct encode { s with fields := s.fields.map (FieldLayout.map f) } value =
      encodeStruct (fun id => encode (f id)) s value := by
  have hbits : presentBits (s.fields.map (FieldLayout.map f)) value =
      presentBits s.fields value := by
    unfold presentBits
    rw [List.filterMap_map]
    refine List.filterMap_congr fun field _ => ?_
    obtain ⟨place, content⟩ := field
    cases content with
    | constant | literal => rfl
    | value type presence => cases presence <;> rfl
  have hfields : (s.fields.map (FieldLayout.map f)).forM (encodeField encode value) =
      s.fields.forM (encodeField (fun id => encode (f id)) value) := by
    induction s.fields with
    | nil => rfl
    | cons field rest ih =>
      change (encodeField encode value (field.map f) >>= fun _ => _) =
        (encodeField _ value field >>= fun _ => _)
      rw [encodeField_map]
      exact congrArg _ (funext fun _ => ih)
  unfold encodeStruct presenceBits
  simp only [hbits, hfields]

theorem find?_map (variants : List VariantLayout) (q : VariantLayout → Bool)
    (hq : ∀ variant, q (variant.map f) = q variant) :
    (variants.map (VariantLayout.map f)).find? q =
      (variants.find? q).map (VariantLayout.map f) := by
  rw [List.find?_map]
  congr 2
  exact funext hq

theorem encodeEnum_map (encode : Encoder) (e : EnumLayout) (value : Json) :
    encodeEnum encode { e with tag := f e.tag, variants := e.variants.map (VariantLayout.map f) }
      value =
      encodeEnum (fun id => encode (f id)) e value := by
  unfold encodeEnum
  refine congrArg (discriminant e value >>= ·) (funext fun found => ?_)
  rw [find?_map f _ _ fun _ => rfl]
  cases e.variants.find? fun variant => variant.dispatch.agree found <;> rfl

/-- **One level of a layout that refers to other slots.** -/
theorem encodeStep_map (encode : Encoder) (layout : Layout) (value : Json) :
    encodeStep encode (layout.map f) value = encodeStep (fun id => encode (f id)) layout value := by
  cases layout with
  | struct s => exact encodeStruct_map f encode s value
  | enum e => exact encodeEnum_map f encode e value
  | _ => rfl

theorem decodeFields_map (decode : Decoder) (bits : List Bool) (g : Gathered)
    (fields : List FieldLayout) :
    decodeFields decode bits g (fields.map (FieldLayout.map f)) =
      decodeFields (fun id => decode (f id)) bits g fields := by
  induction fields generalizing g with
  | nil => rfl
  | cons field rest ih =>
    have hfield : decodeField decode bits (field.map f) =
        decodeField (fun id => decode (f id)) bits field := by
      obtain ⟨place, content⟩ := field
      cases content with
      | constant | literal => rfl
      | value type presence => cases presence <;> rfl
    rw [List.map_cons, decodeFields, decodeFields, hfield]
    exact congrArg (decodeField (fun id => decode (f id)) bits field >>= ·)
      (funext fun value => ih _)

theorem decodeEnum_map (decode : Decoder) (e : EnumLayout) :
    decodeEnum decode { e with tag := f e.tag, variants := e.variants.map (VariantLayout.map f) } =
      decodeEnum (fun id => decode (f id)) e := by
  unfold decodeEnum
  refine congrArg (decode (f e.tag) >>= ·) (funext fun tag => ?_)
  rw [find?_map f _ _ fun _ => rfl]
  cases e.variants.find? fun variant => variant.tag.agree tag <;> rfl

/-- **One level of a layout that refers to other slots.** -/
theorem decodeStep_map (decode : Decoder) (minSize : TypeId → ℕ) (layout : Layout) :
    decodeStep decode minSize (layout.map f) =
      decodeStep (fun id => decode (f id)) (fun id => minSize (f id)) layout := by
  cases layout with
  | struct s => simp only [decodeStep, Layout.map, decodeStruct, decodeFields_map]
  | enum e => exact decodeEnum_map f decode e
  | _ => rfl

end Codec

namespace Arena

variable {f : TypeId → TypeId} {p : TypeId → Prop} {a b : Arena}

/-! ### Numbers, read directly or through their type -/

/-- A primitive behind so many steps is reached with as many levels. -/
theorem codec_of_peelWithin? {steps : ℕ} {id : TypeId} {type : CompiledType} {q : Primitive}
    (h : a.peelWithin? steps id = some type) (htype : type.layout = .primitive q) {levels : ℕ}
    (hlevels : steps ≤ levels) : a.encodeWithin levels id = q.encode ∧
    a.decodeWithin levels id = q.decode := by
  induction steps generalizing id levels with
  | zero => cases h
  | succ steps ih =>
    obtain ⟨levels, rfl⟩ :=
      Nat.exists_eq_add_of_le' (Nat.le_trans (Nat.le_add_left 1 steps) hlevels)
    rw [peelWithin?] at h
    split at h
    · cases h
    · next found hfound =>
      rw [decodeWithin_succ hfound]
      have hencode : a.encodeWithin (levels + 1) id =
          Codec.encodeStep (a.encodeWithin levels) found.layout :=
          funext (encodeWithin_succ hfound levels)
      rw [hencode]
      split at h
      · next target htarget =>
        rw [htarget]
        exact ih h (Nat.le_of_succ_le_succ hlevels)
      · obtain rfl := Option.some.inj h
        rw [htype]
        exact ⟨rfl, rfl⟩

/-- The number of levels that takes one to the primitive, whichever type it is that carries one. -/
theorem exists_slack (a : Arena) : ∃ slack, ∀ id q, a.Carries id q → ∀ levels ≥ slack,
    a.encodeWithin levels id = q.encode ∧ a.decodeWithin levels id = q.decode := by
  -- for the slots in front of a given one
  have hfront : ∀ count : ℕ, ∃ slack, ∀ id : TypeId, id.index < count → ∀ q, a.Carries id q →
      ∀ levels ≥ slack, a.encodeWithin levels id = q.encode ∧
      a.decodeWithin levels id = q.decode := by
    intro count
    induction count with
    | zero => exact ⟨0, fun id hid => absurd hid (Nat.not_lt_zero _)⟩
    | succ count ih =>
      obtain ⟨slack, hslack⟩ := ih
      have hlast : ∃ steps, ∀ q, a.Carries ⟨count⟩ q →
          ∃ type, a.peelWithin? steps ⟨count⟩ = some type ∧ type.layout = .primitive q := by
        by_cases hcarries : ∃ q, a.Carries ⟨count⟩ q
        · obtain ⟨q, hq⟩ := hcarries
          obtain ⟨steps, type, hsteps, htype⟩ := hq.exists_peelWithin?
          refine ⟨steps, fun q' hq' => ⟨type, hsteps, ?_⟩⟩
          rw [htype, hq.unique hq']
        · exact ⟨0, fun q hq => absurd ⟨q, hq⟩ hcarries⟩
      obtain ⟨steps, hsteps⟩ := hlast
      refine ⟨max slack steps, fun id hid q hq levels hlevels => ?_⟩
      rcases Nat.lt_succ_iff_lt_or_eq.1 hid with hlt | heq
      · exact hslack id hlt q hq levels ((le_max_left _ _).trans hlevels)
      · obtain rfl : id = ⟨count⟩ := congrArg TypeId.mk heq
        obtain ⟨type, hpeel, htype⟩ := hsteps q hq
        exact codec_of_peelWithin? hpeel htype ((le_max_right _ _).trans hlevels)
  obtain ⟨slack, hslack⟩ := hfront a.size
  exact ⟨slack, fun id q hq => hslack id hq.lt_size q hq⟩

/-- With fewer levels it lacks some. -/
theorem Carries.codec {id : TypeId} {q : Primitive} (h : a.Carries id q) (levels : ℕ) :
    (∀ value, Repeats (a.encodeWithin levels id value) (q.encode value)) ∧
      Rereads (fun _ => True) (a.decodeWithin levels id) q.decode := by
  induction h generalizing levels with
  | primitive hid hl =>
    cases levels with
    | zero =>
      exact ⟨fun _ => Or.inl fun buffer => ⟨buffer, rfl⟩, Rereads.of_starves fun c => ⟨c, rfl⟩⟩
    | succ levels =>
      rw [decodeWithin_succ hid, hl]
      refine ⟨fun value => ?_, rereads_primitive (fun _ _ _ _ => trivial) _⟩
      rw [encodeWithin_succ hid, hl]
      exact repeats_primitive _ value
  | synonym hid hl _ ih =>
    cases levels with
    | zero =>
      exact ⟨fun _ => Or.inl fun buffer => ⟨buffer, rfl⟩, Rereads.of_starves fun c => ⟨c, rfl⟩⟩
    | succ levels =>
      rw [decodeWithin_succ hid, hl]
      refine ⟨fun value => ?_, (ih levels).2⟩
      rw [encodeWithin_succ hid, hl]
      exact (ih levels).1 value

section Elements

variable {l : ArrayLayout} (hnumeric : ∀ q, l.numeric = some q → a.Carries l.element q)

include hnumeric

theorem elementMin_eq : Codec.elementMin a.minSize l = a.minSize l.element := by
  unfold Codec.elementMin
  cases hq : l.numeric with
  | none => rfl
  | some q => exact (hnumeric q hq).minSize_eq.symm

/-- An array writes its elements as their type does, which may lack levels. -/
theorem repeats_elementEncoder (levels : ℕ) (item : Json) :
    Repeats (a.encodeWithin levels l.element item)
      (Codec.elementEncoder (a.encodeWithin levels) l item) := by
  unfold Codec.elementEncoder
  cases hq : l.numeric with
  | none => exact (Agree.refl a).repeats_encodeWithin le_rfl trivial item
  | some q => exact ((hnumeric q hq).codec levels).1 item

/-- It reads them as their type does. -/
theorem rereads_elementDecoder (levels : ℕ) :
    Rereads (fun _ => True) (a.decodeWithin levels l.element)
      (Codec.elementDecoder (a.decodeWithin levels) l) := by
  unfold Codec.elementDecoder
  cases hq : l.numeric with
  | none => exact rereads_more le_rfl _
  | some q => exact ((hnumeric q hq).codec levels).2

end Elements

namespace Matches

variable (h : Matches f p a b)

include h

theorem carries {id : TypeId} {q : Primitive} (hq : a.Carries id q) (hid : p id) :
    b.Carries (f id) q := by
  induction hq with
  | primitive hget hl =>
    obtain ⟨type, type', htype, htype', hlayout⟩ := h.get? _ hid
    obtain rfl := Option.some.inj (hget.symm.trans htype)
    rw [hl] at hlayout
    rcases Layout.eq_or_array hlayout with heq | ⟨a, numeric, heq, -⟩
    · exact .primitive htype' heq
    · cases heq
  | synonym hget hl _ ih =>
    obtain ⟨type, type', htype, htype', hlayout⟩ := h.get? _ hid
    obtain rfl := Option.some.inj (hget.symm.trans htype)
    have hpart := h.closed _ _ hid hget
    rw [hl] at hlayout hpart
    rcases Layout.eq_or_array hlayout with heq | ⟨a, numeric, heq, -⟩
    · exact .synonym htype' heq (ih (hpart _ List.mem_cons_self))
    · cases heq

/-- An array whose elements do what those do that they match, whichever of the two keeps their
number. -/
theorem within_array {slack : ℕ} (hslack : ∀ id q, b.Carries id q → ∀ levels ≥ slack,
      b.encodeWithin levels id = q.encode ∧ b.decodeWithin levels id = q.decode)
    (levels : ℕ) {l : ArrayLayout} {numeric : Option Primitive} (helement : p l.element)
    (hnumeric : ∀ q, l.numeric = some q → a.Carries l.element q)
    (hnumeric' : ∀ q, numeric = some q → b.Carries (f l.element) q)
    (hencode : ∀ item, Repeats (a.encodeWithin levels l.element item)
      (b.encodeWithin (levels + slack) (f l.element) item))
    (hdecode : Rereads (fun _ => True) (a.decodeWithin levels l.element)
      (b.decodeWithin (levels + slack) (f l.element))) :
    (∀ value, Repeats (Codec.encodeArray (a.encodeWithin levels) l value)
        (Codec.encodeArray (b.encodeWithin (levels + slack))
          { l with element := f l.element, numeric } value)) ∧
      Rereads (fun _ => True) (Codec.decodeArray (a.decodeWithin levels) a.minSize l)
        (Codec.decodeArray (b.decodeWithin (levels + slack)) b.minSize
          { l with element := f l.element, numeric }) := by
  let l' : ArrayLayout := { l with element := f l.element, numeric }
  -- the numbers that the first array reads directly the second arena reads with the levels to spare
  have hwrites : ∀ item, Repeats (Codec.elementEncoder (a.encodeWithin levels) l item)
      (b.encodeWithin (levels + slack) (f l.element) item) := by
    intro item
    unfold Codec.elementEncoder
    cases hq : l.numeric with
    | none => exact hencode item
    | some q =>
      rw [(hslack _ q (h.carries (hnumeric q hq) helement) _ (Nat.le_add_left _ _)).1]
      exact repeats_primitive q item
  have hreads : Rereads (fun _ => True) (Codec.elementDecoder (a.decodeWithin levels) l)
      (b.decodeWithin (levels + slack) (f l.element)) := by
    unfold Codec.elementDecoder
    cases hq : l.numeric with
    | none => exact hdecode
    | some q =>
      rw [(hslack _ q (h.carries (hnumeric q hq) helement) _ (Nat.le_add_left _ _)).2]
      exact rereads_primitive (fun _ _ _ _ => trivial) q
  have hmin : Codec.elementMin a.minSize l = Codec.elementMin b.minSize l' := by
    rw [elementMin_eq hnumeric, elementMin_eq (l := l') hnumeric', h.minSize_eq helement]
  exact ⟨fun value => Codec.repeats_encodeArray Json.closed_all trivial rfl rfl fun item _ =>
      (hwrites item).trans (repeats_elementEncoder (l := l') hnumeric' _ item),
    Codec.rereads_decodeArray (fun _ _ _ _ => trivial) rfl rfl
      (hreads.trans (rereads_elementDecoder (l := l') hnumeric' _)) hmin⟩

variable (ha : a.Grounded) (hb : b.Grounded)

include ha hb

/-- With levels to spare, a slot does what the slot does that it matches. -/
theorem within {slack : ℕ} (hslack : ∀ id q, b.Carries id q → ∀ levels ≥ slack,
      b.encodeWithin levels id = q.encode ∧ b.decodeWithin levels id = q.decode)
    (levels : ℕ) {id : TypeId} (hid : p id) :
    (∀ value, Repeats (a.encodeWithin levels id value)
      (b.encodeWithin (levels + slack) (f id) value)) ∧
      Rereads (fun _ => True) (a.decodeWithin levels id)
        (b.decodeWithin (levels + slack) (f id)) := by
  induction levels generalizing id with
  | zero =>
    exact ⟨fun _ => Or.inl fun buffer => ⟨buffer, rfl⟩, Rereads.of_starves fun c => ⟨c, rfl⟩⟩
  | succ levels ih =>
    obtain ⟨type, type', htype, htype', hlayout⟩ := h.get? id hid
    have hparts := h.closed id type hid htype
    have hmin : ∀ part ∈ type.layout.references, a.minSize part = b.minSize (f part) :=
      fun part hpart => (h.minSize_eq (hparts part hpart)).symm
    rw [Nat.succ_add, decodeWithin_succ htype, decodeWithin_succ htype']
    simp only [encodeWithin_succ htype, encodeWithin_succ htype']
    rcases Layout.eq_or_array hlayout with heq | ⟨l, numeric, hl, heq⟩
    · -- the layouts are the same
      rw [heq]
      simp only [Codec.encodeStep_map, Codec.decodeStep_map]
      exact ⟨fun value => Codec.repeats_encodeStep Json.closed_all type.layout trivial
        (fun _ _ => trivial)
          fun part hpart item _ => (ih (hparts part hpart)).1 item,
        Codec.rereads_decodeStep (fun _ _ _ _ => trivial)
        (fun part hpart => (ih (hparts part hpart)).2) hmin⟩
    · -- both are arrays of the same type
      obtain ⟨l, hlayout, rfl⟩ : ∃ l', type.layout = .array l' ∧
        l = { l' with element := f l'.element } := by
        cases hcase : type.layout <;> rw [hcase] at hl <;> cases hl
        exact ⟨_, rfl, rfl⟩
      have helement : p l.element := hparts _ (by rw [hlayout]; exact List.mem_cons_self)
      have hnumeric : ∀ q, l.numeric = some q → a.Carries l.element q :=
        fun q => (ha.builds id type htype).numeric l q hlayout
      have hnumeric' : ∀ q, numeric = some q → b.Carries (f l.element) q :=
        fun q => (hb.builds _ type' htype').numeric _ q heq
      rw [heq, hlayout]
      exact h.within_array hslack levels helement hnumeric hnumeric' (ih helement).1 (ih helement).2

/-- **Encoding a value of a slot is the same in an arena that matches.** -/
theorem repeats_encode {id : TypeId} (hid : p id) (value : Json) :
    Repeats (a.encode id value) (b.encode (f id) value) := by
  obtain ⟨slack, hslack⟩ := exists_slack b
  exact ((h.within ha hb hslack _ hid).1 value).trans (Arena.repeats_encode _ _ value)

/-- **Decoding a value of a slot is the same in an arena that matches.** -/
theorem rereads_decode {id : TypeId} (hid : p id) :
    Rereads (fun _ => True) (a.decode id) (b.decode (f id)) := by
  obtain ⟨slack, hslack⟩ := exists_slack b
  exact fun bytes hbytes => ((h.within ha hb hslack (a.decodeLevels bytes.length) hid).2.trans
    (Arena.rereads_decode _ _)) bytes hbytes

end Matches

end Arena

end Wireform
