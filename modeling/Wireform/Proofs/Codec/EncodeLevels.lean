import Mathlib.Data.List.ProdSigma
import Wireform.Proofs.Codec.Composition
import Wireform.Proofs.Codec.Writes
import Wireform.Proofs.Converges
import Wireform.Proofs.Layout.Agreement

/-!
# Enough levels to encode

Encoding a value meets only its parts and the constants of the arena, so only finitely
many pairs of a slot and a value. While more levels let more of these pairs come to an end,
the number of those that do grows by one at least; so it stops growing before the levels
that `encode` allows are used up.

* `repeats_encodeStep`: one level of a layout does with other encoders of its parts what
  it did with the first ones.
* `Arena.repeats_encode`: **what ends at some number of levels is what `encode` does**.
* `Arena.Agree.repeats_encode`: it is also what `encode` does in an arena that agrees.
-/

namespace Wireform

/-! ### The parts of a value -/

namespace Json

mutual

/-- A value, the values inside it and the ends of its arrays: all that encoding it can meet. -/
def parts : Json → List Json
  | .array items => .array items :: partsOfItems items
  | .object members => .object members :: partsOfMembers members
  | other => [other]

/-- The ends that start at some items, with the parts of the items. -/
def partsOfItems : List Json → List Json
  | [] => []
  | item :: rest => .array rest :: (parts item ++ partsOfItems rest)

/-- The parts of some members. -/
def partsOfMembers : List (String × Json) → List Json
  | [] => []
  | (_, value) :: rest => parts value ++ partsOfMembers rest

end

mutual

theorem length_parts : ∀ value, (parts value).length = weight value
  | .array items => by
    rw [parts, weight, List.length_cons, length_partsOfItems items, Nat.add_comm]
  | .object members => by
    rw [parts, weight, List.length_cons, length_partsOfMembers members, Nat.add_comm]
  | .null | .bool _ | .number _ | .string _ => rfl

theorem length_partsOfItems : ∀ items, (partsOfItems items).length = weightItems items
  | [] => rfl
  | item :: rest => by
    rw [partsOfItems, weightItems, List.length_cons, List.length_append, length_parts item,
      length_partsOfItems rest]
    omega

theorem length_partsOfMembers : ∀ members, (partsOfMembers members).length = weightMembers members
  | [] => rfl
  | (_, value) :: rest => by
    rw [partsOfMembers, weightMembers, List.length_append, length_parts value,
      length_partsOfMembers rest]

end

theorem self_mem_parts (value : Json) : value ∈ parts value := by
  cases value <;> exact List.mem_cons_self

mutual

theorem parts_subset : ∀ (value : Json) {part : Json}, part ∈ parts value → parts part ⊆ parts value
  | .array items, part, h => by
    rcases List.mem_cons.1 h with rfl | h
    · exact List.Subset.refl _
    · exact List.subset_cons_of_subset _ (partsOfItems_closed items h)
  | .object members, part, h => by
    rcases List.mem_cons.1 h with rfl | h
    · exact List.Subset.refl _
    · exact List.subset_cons_of_subset _ (partsOfMembers_closed members h)
  | .null, part, h | .bool _, part, h | .number _, part, h | .string _, part, h => by
    obtain rfl := List.mem_singleton.1 h
    exact List.Subset.refl _

theorem partsOfItems_closed : ∀ (items : List Json) {part : Json}, part ∈ partsOfItems items →
    parts part ⊆ partsOfItems items
  | item :: rest, part, h => by
    rcases List.mem_cons.1 h with rfl | h
    · exact List.cons_subset_cons _ (List.subset_append_right _ _)
    · rcases List.mem_append.1 h with h | h
      · exact List.subset_cons_of_subset _
          (List.subset_append_of_subset_left _ (parts_subset item h))
      · exact List.subset_cons_of_subset _
          (List.subset_append_of_subset_right _ (partsOfItems_closed rest h))

theorem partsOfMembers_closed : ∀ (members : List (String × Json)) {part : Json},
    part ∈ partsOfMembers members → parts part ⊆ partsOfMembers members
  | (_, value) :: rest, part, h => by
    rcases List.mem_append.1 h with h | h
    · exact List.subset_append_of_subset_left _ (parts_subset value h)
    · exact List.subset_append_of_subset_right _ (partsOfMembers_closed rest h)

end

/-- What contains the parts of a value with the value. -/
structure Closed (s : Json → Prop) : Prop where
  item : ∀ items item, s (.array items) → item ∈ items → s item
  tail : ∀ first rest, s (.array (first :: rest)) → s (.array rest)
  member : ∀ members name value, s (.object members) → (name, value) ∈ members → s value

/-- No value has to be kept out. -/
theorem closed_all : Closed fun _ => True :=
  ⟨fun _ _ _ _ => trivial, fun _ _ _ => trivial, fun _ _ _ _ _ => trivial⟩

theorem mem_partsOfItems {items : List Json} {item : Json} (h : item ∈ items) :
    item ∈ partsOfItems items := by
  induction items with
  | nil => cases h
  | cons first rest ih =>
    refine List.mem_cons_of_mem _ (List.mem_append.2 ?_)
    rcases List.mem_cons.1 h with rfl | h
    · exact Or.inl (self_mem_parts item)
    · exact Or.inr (ih h)

theorem mem_partsOfMembers {members : List (String × Json)} {name : String} {value : Json}
    (h : (name, value) ∈ members) : value ∈ partsOfMembers members := by
  induction members with
  | nil => cases h
  | cons first rest ih =>
    refine List.mem_append.2 ?_
    rcases List.mem_cons.1 h with rfl | h
    · exact Or.inl (self_mem_parts value)
    · exact Or.inr (ih h)

/-- The parts of some values are closed. -/
theorem closed_parts (values : List Json) : Closed fun part => part ∈ values.flatMap parts := by
  -- a part of a part of a value is a part of that value
  have hinside : ∀ whole part, whole ∈ values.flatMap parts → part ∈ parts whole →
      part ∈ values.flatMap parts := by
    intro whole part hwhole hpart
    obtain ⟨value, hvalue, hwhole⟩ := List.mem_flatMap.1 hwhole
    exact List.mem_flatMap.2 ⟨value, hvalue, parts_subset value hwhole hpart⟩
  refine ⟨fun items item h hitem => ?_, fun first rest h => ?_,
    fun members name value h hmember => ?_⟩
  · exact hinside _ _ h (List.mem_cons_of_mem _ (mem_partsOfItems hitem))
  · exact hinside _ _ h (List.mem_cons_of_mem _ List.mem_cons_self)
  · exact hinside _ _ h (List.mem_cons_of_mem _ (mem_partsOfMembers hmember))

end Json

/-! ### Encoding the same again -/

/-- What an encoding does to every buffer: it has a result and appends bytes, or it fails. -/
def Does {α : Type} (x : Encoding α) : Except CodecFailure (α × Array UInt8) → Prop
  | .ok (a, out) => ∀ buffer, x buffer = .ok a (buffer ++ out)
  | .error failure => ∀ buffer, ∃ after, x buffer = .error (.failure failure) after

/-- `y` does what `x` does, to every buffer the same, unless `x` lacks levels. -/
def Repeats {α : Type} (x y : Encoding α) : Prop :=
  (∀ buffer, Starves buffer x) ∨ ∃ out, Does x out ∧ Does y out

section Does

variable {α : Type} {x y : Encoding α} {out out' : Except CodecFailure (α × Array UInt8)}

theorem Starves.inside {σ : Type} {s : σ} {x : EStateM (Stop CodecFailure) σ α} (h : Starves s x)
    (step : PathStep) : Starves s (Wireform.inside step x) := by
  obtain ⟨t, ht⟩ := h
  refine ⟨t, ?_⟩
  unfold Wireform.inside
  rw [ht]

theorem Does.not_starves (h : Does x out) (buffer : Array UInt8) : ¬Starves buffer x := by
  rintro ⟨t, ht⟩
  cases out with
  | ok found =>
    rw [h buffer] at ht
    cases ht
  | error failure =>
    obtain ⟨after, hafter⟩ := h buffer
    rw [hafter] at ht
    cases ht

/-- What an encoding does is seen at the empty buffer. -/
theorem Does.unique (h : Does x out) (h' : Does x out') : out = out' := by
  cases out with
  | ok found =>
    have hrun := h #[]
    cases out' with
    | ok found' =>
      rw [h' #[], Array.empty_append, Array.empty_append] at hrun
      obtain ⟨ha, hbytes⟩ := EStateM.Result.ok.inj hrun
      exact congrArg Except.ok (Prod.ext ha.symm hbytes.symm)
    | error failure =>
      obtain ⟨after, hafter⟩ := h' #[]
      rw [hafter] at hrun
      cases hrun
  | error failure =>
    obtain ⟨after, hrun⟩ := h #[]
    cases out' with
    | ok found' =>
      rw [h' #[]] at hrun
      cases hrun
    | error failure' =>
      obtain ⟨after', hafter⟩ := h' #[]
      rw [hafter] at hrun
      cases hrun
      rfl

end Does

namespace Repeats

variable {α β : Type} {x y z : Encoding α}

theorem pure (a : α) : Repeats (Pure.pure a) (Pure.pure a) := by
  have hdoes : Does (Pure.pure a) (.ok (a, #[])) := by
    intro buffer
    rw [Array.append_empty]
    rfl
  exact Or.inr ⟨_, hdoes, hdoes⟩

theorem fail (cause : CodecError) : Repeats (failWith (α := α) cause) (failWith cause) := by
  have hdoes : Does (failWith (α := α) cause) (.error ⟨[], cause⟩) := fun buffer => ⟨buffer, rfl⟩
  exact Or.inr ⟨_, hdoes, hdoes⟩

theorem emit (bytes : List UInt8) : Repeats (Wireform.emit bytes) (Wireform.emit bytes) := by
  have hdoes : Does (Wireform.emit bytes) (.ok ((), bytes.toArray)) := fun _ => rfl
  exact Or.inr ⟨_, hdoes, hdoes⟩

theorem bind {f g : α → Encoding β} (hxy : Repeats x y) (hfg : ∀ a, Repeats (f a) (g a)) :
    Repeats (x >>= f) (y >>= g) := by
  rcases hxy with hstarves | ⟨out, hx, hy⟩
  · exact Or.inl fun buffer => (hstarves buffer).bind f
  cases out with
  | ok found =>
    obtain ⟨a, out⟩ := found
    rcases hfg a with hstarves | ⟨more, hf, hg⟩
    · exact Or.inl fun buffer => Starves.bind_of_ok (hx buffer) (hstarves _)
    · cases more with
      | ok found =>
        obtain ⟨b, more⟩ := found
        refine Or.inr ⟨.ok (b, out ++ more), fun buffer => ?_, fun buffer => ?_⟩
        · rw [bind_of_ok (hx buffer), hf, Array.append_assoc]
        · rw [bind_of_ok (hy buffer), hg, Array.append_assoc]
      | error failure =>
        refine Or.inr ⟨.error failure, fun buffer => ?_, fun buffer => ?_⟩
        · rw [bind_of_ok (hx buffer)]
          exact hf _
        · rw [bind_of_ok (hy buffer)]
          exact hg _
  | error failure =>
    refine Or.inr ⟨.error failure, fun buffer => ?_, fun buffer => ?_⟩
    · exact (hx buffer).imp fun _ hrun => bind_of_error hrun
    · exact (hy buffer).imp fun _ hrun => bind_of_error hrun

theorem inside (step : PathStep) (h : Repeats x y) :
    Repeats (Wireform.inside step x) (Wireform.inside step y) := by
  rcases h with hstarves | ⟨out, hx, hy⟩
  · exact Or.inl fun buffer => (hstarves buffer).inside step
  cases out with
  | ok found =>
    exact Or.inr ⟨.ok found, fun buffer => (inside_ok_iff step).2 (hx buffer),
      fun buffer => (inside_ok_iff step).2 (hy buffer)⟩
  | error failure =>
    refine Or.inr ⟨.error (failure.within step), fun buffer => ?_, fun buffer => ?_⟩
    · exact (hx buffer).imp fun _ hrun => inside_of_failure step hrun
    · exact (hy buffer).imp fun _ hrun => inside_of_failure step hrun

theorem trans (hxy : Repeats x y) (hyz : Repeats y z) : Repeats x z := by
  rcases hxy with hstarves | ⟨out, hx, hy⟩
  · exact Or.inl hstarves
  rcases hyz with hstarves | ⟨out', hy', hz⟩
  · exact absurd (hstarves #[]) (hy.not_starves #[])
  · exact Or.inr ⟨out, hx, hy.unique hy' ▸ hz⟩

/-- If `y` repeats both `x` and `z`, then `z` repeats `x` too if it does not lack levels itself. -/
theorem of_ends (hxy : Repeats x y) (hzy : Repeats z y)
    (h : ¬Starves #[] x → ¬Starves #[] z) : Repeats x z := by
  rcases hxy with hstarves | ⟨out, hx, hy⟩
  · exact Or.inl hstarves
  rcases hzy with hstarves | ⟨out', hz, hy'⟩
  · exact absurd (hstarves #[]) (h (hx.not_starves #[]))
  · exact Or.inr ⟨out, hx, hy.unique hy' ▸ hz⟩

/-- What does not lack levels at one buffer does not lack them at another. -/
theorem not_starves (h : Repeats x y) {buffer : Array UInt8} (hx : ¬Starves buffer x)
    (other : Array UInt8) :
    ¬Starves other y := by
  rcases h with hstarves | ⟨out, -, hy⟩
  · exact absurd (hstarves buffer) hx
  · exact hy.not_starves other

/-- What repeats each other ends in the same. -/
theorem ending_eq (hxy : Repeats x y) (hyx : Repeats y x) (buffer : Array UInt8) :
    ending x buffer = ending y buffer := by
  rcases hxy with hx | ⟨out, hx, hy⟩
  · rcases hyx with hy | ⟨out, -, hx'⟩
    · obtain ⟨t, ht⟩ := hx buffer
      obtain ⟨t', ht'⟩ := hy buffer
      rw [ending_of_error ht, ending_of_error ht']
    · exact absurd (hx buffer) (hx'.not_starves buffer)
  cases out with
  | ok found => rw [ending_of_ok (hx buffer), ending_of_ok (hy buffer)]
  | error failure =>
    obtain ⟨t, ht⟩ := hx buffer
    obtain ⟨t', ht'⟩ := hy buffer
    rw [ending_of_error ht, ending_of_error ht']

/-- A result is repeated with the same bytes. -/
theorem of_ok (h : Repeats x y) {buffer after : Array UInt8} {a : α} (hx : x buffer = .ok a after) :
    ∃ out : Array UInt8, after = buffer ++ out ∧ ∀ other, y other = .ok a (other ++ out) := by
  rcases h with hstarves | ⟨out, hx', hy⟩
  · obtain ⟨t, ht⟩ := hstarves buffer
    rw [hx] at ht
    cases ht
  cases out with
  | ok found =>
    obtain ⟨a', out⟩ := found
    obtain ⟨rfl, rfl⟩ := EStateM.Result.ok.inj (hx.symm.trans (hx' buffer))
    exact ⟨out, rfl, hy⟩
  | error failure =>
    obtain ⟨t, ht⟩ := hx' buffer
    rw [hx] at ht
    cases ht

end Repeats

/-- What is composed of results, failures and bytes does the same to every buffer. -/
theorem composes_repeats : Composes fun x => Repeats x x :=
  ⟨Repeats.pure, Repeats.fail, Repeats.emit, Repeats.bind⟩

/-- A primitive does the same to every buffer. -/
theorem repeats_primitive (p : Primitive) (value : Json) :
    Repeats (p.encode value) (p.encode value) :=
  composes_repeats.primitive p value

/-! ### Layouts -/

namespace Codec

theorem repeats_arrayItems {α : Type} {value : Json} {f g : List Json → Encoding α}
    (h : ∀ items, value = .array items → Repeats (f items) (g items)) :
    Repeats (arrayItems value >>= f) (arrayItems value >>= g) := by
  cases value with
  | array items => exact h items rfl
  | _ => exact Repeats.fail _

theorem valueAt?_closed {s : Json → Prop} (hs : Json.Closed s) {value found : Json}
    (hvalue : s value) {place : FieldPlace} (h : valueAt? value place = some found) : s found := by
  cases place with
  | detached => cases h
  | key name =>
    cases value with
    | object members => exact hs.member members name found hvalue (Assoc.mem_of_get? h)
    | _ => cases h
  | position index =>
    cases value with
    | array items => exact hs.item items found hvalue (List.mem_of_getElem? h)
    | _ => cases h

theorem payloadOf_closed {s : Json → Prop} (hs : Json.Closed s) {value : Json} (hvalue : s value)
    (shape : EnumShape) (variant : VariantLayout) : s (payloadOf shape variant value) := by
  unfold payloadOf
  split
  · split
    · exact hvalue
    · exact hs.tail _ _ hvalue
  · exact hvalue

variable {encode encode' : Encoder} {s : Json → Prop}

theorem repeats_encodeField (hs : Json.Closed s) {value : Json} (hvalue : s value)
    (field : FieldLayout)
    (hconstant : ∀ type constant verify, field.content =
      .constant type constant verify → s constant)
    (h : ∀ id, field.reference? = some id →
      ∀ part, s part → Repeats (encode id part) (encode' id part)) :
    Repeats (encodeField encode value field) (encodeField encode' value field) := by
  obtain ⟨place, content⟩ := field
  cases content with
  | constant type constant verify =>
    exact Repeats.inside _ (h type rfl constant (hconstant type constant verify rfl))
  | literal constant => exact Repeats.pure _
  | value type presence =>
    simp only [encodeField]
    split
    · next found hfound =>
        exact Repeats.inside _ (h type rfl found (valueAt?_closed hs hvalue hfound))
    · next found bit hfound =>
      split
      · exact Repeats.pure _
      · exact Repeats.inside _ (h type rfl found (valueAt?_closed hs hvalue hfound))
    · exact Repeats.pure _
    · exact Repeats.fail _

theorem repeats_encodeFields (hs : Json.Closed s) {value : Json} (hvalue : s value)
    (fields : List FieldLayout)
    (hconstant : ∀ field ∈ fields, ∀ type constant verify,
      field.content = .constant type constant verify → s constant)
    (h : ∀ field ∈ fields, ∀ id, field.reference? = some id → ∀ part, s part →
      Repeats (encode id part) (encode' id part)) :
    Repeats (fields.forM (encodeField encode value)) (fields.forM (encodeField encode' value)) := by
  induction fields with
  | nil => exact Repeats.pure _
  | cons field rest ih =>
    have hfield := repeats_encodeField hs hvalue field (hconstant field List.mem_cons_self)
      (h field List.mem_cons_self)
    exact hfield.bind fun _ => ih (fun other ho => hconstant other (List.mem_cons_of_mem _ ho))
      fun other ho => h other (List.mem_cons_of_mem _ ho)

theorem repeats_encodeStruct (hs : Json.Closed s) {value : Json} (hvalue : s value)
    (l : StructLayout) (hconstant : ∀ constant ∈ (Layout.struct l).constants, s constant)
    (h : ∀ id ∈ (Layout.struct l).references, ∀ part, s part →
      Repeats (encode id part) (encode' id part)) :
    Repeats (encodeStruct encode l value) (encodeStruct encode' l value) := by
  refine (composes_repeats.checkShape l.shape value).bind fun _ => ?_
  split
  · exact Repeats.pure _
  · refine (Repeats.emit _).bind fun _ => repeats_encodeFields hs hvalue l.fields ?_ ?_
    -- the constant of a field is one of those of the layout
    · intro field hfield type constant verify hcontent
      refine hconstant constant (List.mem_filterMap.2 ⟨field, hfield, ?_⟩)
      simp only [hcontent]
    · exact fun field hfield id hid => h id (List.mem_filterMap.2 ⟨field, hfield, hid⟩)

theorem repeats_encodeItems {item item' : Json → Encoding Unit} (items : List Json)
    (h : ∀ value ∈ items, Repeats (item value) (item' value)) (position : ℕ) :
    Repeats (encodeItems item position items) (encodeItems item' position items) := by
  induction items generalizing position with
  | nil => exact Repeats.pure _
  | cons value rest ih =>
    refine (Repeats.inside _ (h value List.mem_cons_self)).bind fun _ => ?_
    exact ih (fun other ho => h other (List.mem_cons_of_mem _ ho)) (position + 1)

/-- The elements of an array may be encoded in another way in which each of them does the same. -/
theorem repeats_encodeArray (hs : Json.Closed s) {value : Json} (hvalue : s value)
    {a a' : ArrayLayout} (hsize : a'.size = a.size) (hnullable : a'.nullable = a.nullable)
    (h : ∀ item, s item → Repeats (elementEncoder encode a item) (elementEncoder encode' a' item)) :
    Repeats (encodeArray encode a value) (encodeArray encode' a' value) := by
  refine repeats_arrayItems fun items hitems => ?_
  unfold arrayBitmap
  rw [hsize, hnullable]
  refine (composes_repeats.checkLength a.size items).bind fun _ => ?_
  refine (Repeats.emit _).bind fun _ => repeats_encodeItems items (fun item hitem => ?_) 0
  unfold encodeElement
  rw [hnullable]
  split
  · exact Repeats.pure _
  · exact h item (hs.item items item (hitems ▸ hvalue) hitem)

theorem repeats_elementEncoder (a : ArrayLayout) {item : Json}
    (h : Repeats (encode a.element item) (encode' a.element item)) :
    Repeats (elementEncoder encode a item) (elementEncoder encode' a item) := by
  unfold elementEncoder
  cases a.numeric with
  | some p => exact repeats_primitive p item
  | none => exact h

theorem repeats_encodeList (hs : Json.Closed s) {value : Json} (hvalue : s value) (element : TypeId)
    (maxLength : Option ℕ)
    (h : ∀ part, s part → Repeats (encode element part) (encode' element part)) :
    Repeats (encodeList encode element maxLength value)
      (encodeList encode' element maxLength value) := by
  refine repeats_arrayItems fun items hitems => ?_
  refine (composes_repeats.checkLimit maxLength items.length).bind fun _ => ?_
  refine (Repeats.emit _).bind fun _ => repeats_encodeItems items (fun item hitem => ?_) 0
  exact h item (hs.item items item (hitems ▸ hvalue) hitem)

theorem repeats_encodeBytes (count : ℕ) (value : Json) :
    Repeats (encodeBytes count value) (encodeBytes count value) := by
  refine repeats_arrayItems fun items _ => ?_
  refine (composes_repeats.checkLength count items).bind
    fun _ => repeats_encodeItems items (fun item _ => ?_) 0
  exact composes_repeats.encodeByte item

/-- Padding depends on how much has been appended, not on what was there before. -/
theorem encodePadded_of_ok {inner : TypeId} {value : Json} {buffer after : Array UInt8}
    (h : encode inner value buffer = .ok () after) (size : ℕ) :
    encodePadded encode inner size value buffer =
      if size < after.size - buffer.size then
        .error (.failure ⟨[], .paddingOverflow (after.size - buffer.size) size⟩)
          (after.take buffer.size)
      else .ok () (after ++ (List.replicate (size - (after.size - buffer.size)) 0).toArray) := by
  refine (bind_of_ok h).trans ?_
  change (if size < after.size - buffer.size then _ else _ : Encoding Unit) after = _
  split <;> rfl

theorem repeats_encodePadded (inner : TypeId) (size : ℕ) (value : Json)
    (h : Repeats (encode inner value) (encode' inner value)) :
    Repeats (encodePadded encode inner size value) (encodePadded encode' inner size value) := by
  rcases h with hstarves | ⟨out, hx, hy⟩
  · exact Or.inl fun buffer => Starves.get_bind ((hstarves buffer).bind _)
  cases out with
  | ok found =>
    obtain ⟨_, out⟩ := found
    -- only the length of what the value takes decides, and it is the same in every buffer
    by_cases hfits : size < out.size
    · refine Or.inr ⟨.error ⟨[], .paddingOverflow out.size size⟩, fun buffer => ?_,
        fun buffer => ?_⟩
      · rw [encodePadded_of_ok (hx buffer), Array.size_append,
          Nat.add_sub_cancel_left, if_pos hfits]
        exact ⟨_, rfl⟩
      · rw [encodePadded_of_ok (hy buffer), Array.size_append,
          Nat.add_sub_cancel_left, if_pos hfits]
        exact ⟨_, rfl⟩
    · refine Or.inr ⟨.ok ((), out ++ (List.replicate (size - out.size) 0).toArray),
        fun buffer => ?_, fun buffer => ?_⟩
      · rw [encodePadded_of_ok (hx buffer), Array.size_append,
          Nat.add_sub_cancel_left, if_neg hfits, Array.append_assoc]
      · rw [encodePadded_of_ok (hy buffer), Array.size_append,
          Nat.add_sub_cancel_left, if_neg hfits, Array.append_assoc]
  | error failure =>
    refine Or.inr ⟨.error failure, fun buffer => ?_, fun buffer => ?_⟩
    · exact (hx buffer).imp fun _ hrun => bind_of_error (x := encode inner value) hrun
    · exact (hy buffer).imp fun _ hrun => bind_of_error (x := encode' inner value) hrun

theorem repeats_encodeEnum (hs : Json.Closed s) {value : Json} (hvalue : s value) (e : EnumLayout)
    (hconstant : ∀ constant ∈ (Layout.enum e).constants, s constant)
    (h : ∀ id ∈ (Layout.enum e).references, ∀ part, s part →
      Repeats (encode id part) (encode' id part)) :
    Repeats (encodeEnum encode e value) (encodeEnum encode' e value) := by
  refine (composes_repeats.discriminant e value).bind fun found => ?_
  split
  · exact Repeats.fail _
  · next variant hfind =>
    have hmem := List.mem_of_find?_eq_some hfind
    -- the tags of the variants count as constants
    refine (h e.tag List.mem_cons_self variant.tag (hconstant _ (List.mem_map_of_mem hmem))).bind
      fun _ => ?_
    have hpayload := h variant.payload (List.mem_cons_of_mem _ (List.mem_map_of_mem hmem))
    exact Repeats.inside _ (hpayload _ (payloadOf_closed hs hvalue e.shape variant))

/-- **One level of a layout.** Only the parts of the value and the constants are passed on. -/
theorem repeats_encodeStep (hs : Json.Closed s) (layout : Layout) {value : Json} (hvalue : s value)
    (hconstant : ∀ constant ∈ layout.constants, s constant)
    (h : ∀ id ∈ layout.references, ∀ part, s part → Repeats (encode id part) (encode' id part)) :
    Repeats (encodeStep encode layout value) (encodeStep encode' layout value) := by
  cases layout with
  | primitive p => exact repeats_primitive p value
  | struct l => exact repeats_encodeStruct hs hvalue l hconstant h
  | array a =>
    exact repeats_encodeArray hs hvalue rfl rfl fun item hitem =>
      repeats_elementEncoder a (h a.element List.mem_cons_self item hitem)
  | enum e => exact repeats_encodeEnum hs hvalue e hconstant h
  | synonym target => exact h target List.mem_cons_self value hvalue
  | list element maxLength =>
    exact repeats_encodeList hs hvalue element maxLength (h element List.mem_cons_self)
  | padded inner size =>
    exact repeats_encodePadded inner size value (h inner List.mem_cons_self value hvalue)
  | bytes count => exact repeats_encodeBytes count value

end Codec

/-! ### Levels -/

namespace Arena

variable {arena a b : Arena} {p : TypeId → Prop}

theorem encodeWithin_succ {id : TypeId} {type : CompiledType} (hid : arena.get? id = some type)
    (levels : ℕ) (value : Json) : arena.encodeWithin (levels + 1) id value =
      Codec.encodeStep (arena.encodeWithin levels) type.layout value := by
  rw [encodeWithin, hid]

theorem encodeWithin_of_empty {id : TypeId} (hid : arena.get? id = none) (levels : ℕ)
    (value : Json) :
    arena.encodeWithin (levels + 1) id value = failWith (.unresolved id.index) := by
  rw [encodeWithin, hid]

/-- The constants and tags of all types. -/
def constants (arena : Arena) : List Json :=
  arena.slots.toList.flatMap fun slot =>
    match slot with
    | some type => type.layout.constants
    | none => []

theorem mem_constants {id : TypeId} {type : CompiledType} (hid : arena.get? id = some type)
    {constant : Json} (h : constant ∈ type.layout.constants) : constant ∈ arena.constants := by
  have hslot : arena.slots[id.index]? = some (some type) := Option.join_eq_some_iff.1 hid
  exact List.mem_flatMap.2 ⟨some type, Array.mem_toList_iff.2 (Array.mem_of_getElem? hslot), h⟩

/-- If all that can be met inside is repeated, so is what stands one level further out. -/
theorem Agree.repeats_succ (hagree : Agree p a b) {s : Json → Prop} (hs : Json.Closed s)
    (hconstants : ∀ constant ∈ a.constants, s constant) {levels more : ℕ}
    (h : ∀ id part, p id → s part →
      Repeats (a.encodeWithin levels id part) (b.encodeWithin more id part))
    {id : TypeId} (hid : p id) {value : Json} (hvalue : s value) :
    Repeats (a.encodeWithin (levels + 1) id value) (b.encodeWithin (more + 1) id value) := by
  have hget := hagree.get? id hid
  cases htype : a.get? id with
  | none =>
    rw [htype] at hget
    rw [encodeWithin_of_empty htype, encodeWithin_of_empty hget.symm]
    exact Repeats.fail _
  | some type =>
    rw [htype] at hget
    rw [encodeWithin_succ htype, encodeWithin_succ hget.symm]
    refine Codec.repeats_encodeStep hs type.layout hvalue ?_ ?_
    · exact fun constant hc => hconstants constant (mem_constants htype hc)
    · exact fun part hpart value => h part value (hagree.closed id type hid htype part hpart)

/-- More levels do the same, in any arena that agrees. -/
theorem Agree.repeats_encodeWithin (hagree : Agree p a b) {levels more : ℕ} (hle : levels ≤ more)
    {id : TypeId} (hid : p id) (value : Json) :
    Repeats (a.encodeWithin levels id value) (b.encodeWithin more id value) := by
  induction levels generalizing more id value with
  | zero => exact Or.inl fun buffer => ⟨buffer, rfl⟩
  | succ levels ih =>
    obtain ⟨more, rfl⟩ : ∃ m, more = m + 1 := ⟨more - 1, by omega⟩
    exact hagree.repeats_succ Json.closed_all (fun _ _ => trivial)
      (fun id part hid _ => ih (by omega) hid part) hid trivial

/-- A sum in a fold is the length of what is summed. -/
theorem foldl_eq_length {α β : Type} {f : ℕ → α → ℕ} {g : α → List β}
    (h : ∀ total a, f total a = total + (g a).length) (s : List α) (total : ℕ) :
    s.foldl f total = total + (s.flatMap g).length := by
  induction s generalizing total with
  | nil => rfl
  | cons a rest ih =>
    rw [List.foldl_cons, ih, h, List.flatMap_cons, List.length_append, Nat.add_assoc]

theorem length_parts_constants :
    (arena.constants.flatMap Json.parts).length = arena.constantWeight := by
  rw [constants, List.flatMap_assoc, constantWeight, ← Array.foldl_toList,
    foldl_eq_length, Nat.zero_add]
  intro total slot
  cases slot with
  | none => rfl
  | some type => exact foldl_eq_length (fun total value => by rw [Json.length_parts]) _ _

/-- All values that encoding a value can meet: its parts, and those of the constants. -/
def met (arena : Arena) (value : Json) : List Json := (value :: arena.constants).flatMap Json.parts

theorem length_met (value : Json) :
    (arena.met value).length = value.weight + arena.constantWeight := by
  rw [met, List.flatMap_cons, List.length_append, Json.length_parts, length_parts_constants]

theorem mem_met {value root : Json} (h : root ∈ value :: arena.constants) :
    root ∈ arena.met value :=
  List.mem_flatMap.2 ⟨root, h, Json.self_mem_parts root⟩

/-- The slots of an arena with the values that encoding a value can meet. -/
def metPairs (arena : Arena) (value : Json) : List (TypeId × Json) :=
  ((List.range arena.size).map TypeId.mk) ×ˢ arena.met value

theorem mem_metPairs {value part : Json} {id : TypeId} {type : CompiledType}
    (hid : arena.get? id = some type) (hpart : part ∈ arena.met value) :
    (id, part) ∈ arena.metPairs value := by
  have hslot : id ∈ (List.range arena.size).map TypeId.mk :=
    List.mem_map.2 ⟨id.index, List.mem_range.2 (lt_size_of_get? _ hid), rfl⟩
  exact List.mem_product.2 ⟨hslot, hpart⟩

theorem length_metPairs (value : Json) :
    (arena.metPairs value).length = arena.size * (value.weight + arena.constantWeight) := by
  rw [metPairs, List.length_product, List.length_map, List.length_range, length_met]

/-- **Enough levels.** What does not lack levels at some number of them is what `encode` does. -/
theorem repeats_encode (levels : ℕ) (id : TypeId) (value : Json) :
    Repeats (arena.encodeWithin levels id value) (arena.encode id value) := by
  have hmore : ∀ {levels more : ℕ}, levels ≤ more → ∀ id value,
      Repeats (arena.encodeWithin levels id value) (arena.encodeWithin more id value) :=
    fun hle _ value => (Agree.refl arena).repeats_encodeWithin hle trivial value
  have hmono : ∀ (k : ℕ) (pair : TypeId × Json),
      ¬Starves #[] (arena.encodeWithin (k + 1) pair.1 pair.2) →
      ¬Starves #[] (arena.encodeWithin (k + 1 + 1) pair.1 pair.2) :=
    fun k pair h => (hmore (Nat.le_succ (k + 1)) pair.1 pair.2).not_starves h #[]
  obtain ⟨k, hk, hstable⟩ := exists_stable (arena.metPairs value) hmono
  -- from `k + 1` levels on nothing more ends
  have hrun : ∀ levels id part, part ∈ arena.met value →
      Repeats (arena.encodeWithin levels id part) (arena.encodeWithin (k + 1) id part) := by
    intro levels
    induction levels with
    | zero => exact fun _ _ _ => Or.inl fun buffer => ⟨buffer, rfl⟩
    -- what ends at one level more ends at level `k + 2`, hence at level `k + 1`
    | succ levels ih =>
      intro id part hpart
      have hsucc : Repeats (arena.encodeWithin (levels + 1) id part)
          (arena.encodeWithin (k + 1 + 1) id part) :=
        (Agree.refl arena).repeats_succ (Json.closed_parts _)
          (fun constant hc => mem_met (List.mem_cons_of_mem _ hc))
          (fun id part _ => ih id part) trivial hpart
      refine hsucc.of_ends (hmore (Nat.le_succ (k + 1)) id part) fun hends => ?_
      cases hid : arena.get? id with
      | some type => exact hstable (id, part) (mem_metPairs hid hpart) (hsucc.not_starves hends #[])
      | none =>
        rw [encodeWithin_of_empty hid]
        rintro ⟨t, ht⟩
        cases ht
  -- `encode` has a level for each pair, and one more
  have hlevels : k + 1 ≤ arena.encodeLevels value := by
    rw [length_metPairs] at hk
    exact Nat.succ_le_succ hk
  exact (hrun levels id value (mem_met List.mem_cons_self)).trans (hmore hlevels id value)

/-- Encoding is the same in an arena that agrees. -/
theorem Agree.repeats_encode (hagree : Agree p a b) {id : TypeId} (hid : p id) (value : Json) :
    Repeats (a.encode id value) (b.encode id value) :=
  (hagree.repeats_encodeWithin (Nat.le_refl _) hid value).trans (Arena.repeats_encode _ id value)

end Arena

end Wireform
