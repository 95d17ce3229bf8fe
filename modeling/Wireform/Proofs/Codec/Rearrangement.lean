import Mathlib.Logic.Relation
import Wireform.Proofs.Codec.Format
import Wireform.Proofs.Codec.Room
import Wireform.Proofs.Codec.Selection
import Wireform.Proofs.Json.Rearrangement

/-!
# Encoding looks members up

A struct asks its value for the members that it has fields for, and an enum for the one that is its
discriminant. What else there is in an object, and in which order, is not looked at, unless the
object is compared with a discriminant or written as text.

* `Arena.ReadsAs`: what reads the part of a value at a place.
* `Arena.Spare`: the members that nothing there mentions.
* `Arena.concurs_encodeWithin`: **rearranging a value, with members that are spare,
  does not change its bytes**.
-/

namespace Wireform

open Json (Additions Rearranged)

namespace Codec

variable {encode encode' : Encoder} {adds : Additions} {value value' : Json}
  {items items' : List Json}

/-! ### Values that are looked at as a whole -/

/-- What has no result for arrays and objects does the same for other values. -/
theorem concurs_scalar {σ α : Type} {x : Json → EStateM (Stop CodecFailure) σ α}
    (harray : ∀ items s a t, x (.array items) s ≠ .ok a t)
    (hobject : ∀ members s a t, x (.object members) s ≠ .ok a t)
    (h : Rearranged adds value value') : Concurs (x value) (x value') := by
  cases h with
  | null | bool | number | string => exact Concurs.refl _
  | array => exact Concurs.of_fails (harray _) (harray _)
  | object => exact Concurs.of_fails (hobject _) (hobject _)

theorem concurs_primitive {p : Primitive} (hp : p ≠ .json) (h : Rearranged adds value value') :
    Concurs (p.encode value) (p.encode value') := by
  refine concurs_scalar (x := p.encode) (fun items s a t hrun => ?_)
    (fun members s a t hrun => ?_) h <;>
  · cases p with
    | json => exact hp rfl
    | _ => cases hrun

theorem concurs_encodeByte (h : Rearranged adds value value') :
    Concurs (encodeByte value) (encodeByte value') :=
  concurs_scalar (fun _ _ _ _ hrun => nomatch hrun) (fun _ _ _ _ hrun => nomatch hrun) h

/-! ### Items -/

theorem concurs_arrayItems {f : List Json → Encoding Unit} (h : Rearranged adds value value')
    (hf : ∀ items items', value = .array items → value' = .array items' →
      Concurs (f items) (f items')) :
    Concurs (arrayItems value >>= f) (arrayItems value' >>= f) := by
  cases h with
  | array => exact hf _ _ rfl rfl
  | null | bool | number | string => exact Concurs.refl _
  | object =>
    exact Concurs.of_fails (fun _ _ _ hrun => nomatch hrun) (fun _ _ _ hrun => nomatch hrun)

theorem concurs_encodeItems {item : Json → Encoding Unit}
    (h : List.Forall₂ (fun value value' => Concurs (item value) (item value')) items items')
    (position : ℕ) :
    Concurs (encodeItems item position items) (encodeItems item position items') := by
  induction h generalizing position with
  | nil => exact Concurs.refl _
  | cons hfirst _ ih =>
    exact (hfirst.inside (.index position)).bind fun _ _ _ _ => ih (position + 1)

/-- Items that are rearranged leave the bitmap as it is. -/
theorem arrayBitmap_eq (a : ArrayLayout) (h : Rearranged adds (.array items) (.array items')) :
    arrayBitmap a items = arrayBitmap a items' := by
  have hnull : List.Forall₂ (fun item item' => item.isNull = item'.isNull) items items' :=
    h.forall₂_items fun _ _ _ _ hitem => hitem.isNull_eq
  have hmap : (items.map fun item => !item.isNull) = items'.map fun item => !item.isNull := by
    clear h
    induction hnull with
    | nil => rfl
    | cons hfirst _ ih => rw [List.map_cons, List.map_cons, hfirst, ih]
  rw [arrayBitmap, arrayBitmap, hmap]

/-- The bytes of an array are the same if those of its items are. -/
theorem concurs_encodeArray {a : ArrayLayout} (h : Rearranged adds value value')
    (hitem : ∀ position item item', value.item? position = some item →
      Rearranged (adds.inside (.index position)) item item' →
      Concurs (elementEncoder encode a item) (elementEncoder encode a item')) :
    Concurs (encodeArray encode a value) (encodeArray encode a value') := by
  refine concurs_arrayItems h fun items items' heq heq' => ?_
  subst heq heq'
  have hlength : items.length = items'.length := by cases h; assumption
  have helement :
      List.Forall₂
      (fun item item' => Concurs (encodeElement encode a item) (encodeElement encode a item'))
      items items' := by
    refine h.forall₂_items fun position item item' hfound hpart => ?_
    unfold encodeElement
    rw [← hpart.isNull_eq]
    split
    · exact Concurs.refl _
    · exact hitem position item item' hfound hpart
  unfold checkLength
  rw [hlength, arrayBitmap_eq a h]
  exact (Concurs.refl _).bind fun _ _ _ _ =>
    (Concurs.refl _).bind fun _ _ _ _ => concurs_encodeItems helement 0

/-- The bytes of a list are the same if those of its items are. -/
theorem concurs_encodeList {element : TypeId} {maxLength : Option ℕ}
    (h : Rearranged adds value value')
    (hitem : ∀ position item item', value.item? position = some item →
      Rearranged (adds.inside (.index position)) item item' → Concurs (encode element item)
      (encode element item')) :
    Concurs (encodeList encode element maxLength value)
      (encodeList encode element maxLength value') := by
  refine concurs_arrayItems h fun items items' heq heq' => ?_
  subst heq heq'
  have hlength : items.length = items'.length := by cases h; assumption
  rw [hlength]
  exact (Concurs.refl _).bind fun _ _ _ _ => (Concurs.refl _).bind fun _ _ _ _ =>
    concurs_encodeItems (h.forall₂_items hitem) 0

theorem concurs_encodeBytes {count : ℕ} (h : Rearranged adds value value') :
    Concurs (encodeBytes count value) (encodeBytes count value') := by
  refine concurs_arrayItems h fun items items' heq heq' => ?_
  subst heq heq'
  have hlength : items.length = items'.length := by cases h; assumption
  unfold checkLength
  rw [hlength]
  exact (Concurs.refl _).bind fun _ _ _ _ =>
    concurs_encodeItems (h.forall₂_items fun _ _ _ _ => concurs_encodeByte) 0

/-! ### Fields -/

/-- What is found at a place whose name may not be added has been rearranged. -/
theorem valueAt?_rearranged {place : FieldPlace} (h : Rearranged adds value value')
    (hname : ∀ name, place = .key name → ¬adds [] name) :
    Option.Rel (Rearranged (adds.inside place.step)) (valueAt? value place)
      (valueAt? value' place) := by
  cases place with
  | key name => exact h.member? (hname name rfl)
  | position index => exact h.item? index
  | detached => exact .none

theorem isPresent_eq {found found' : Option Json} (h : Option.Rel (Rearranged adds) found found') :
    isPresent found = isPresent found' := by
  cases h with
  | none => rfl
  | some hfound => exact congrArg (!·) hfound.isNull_eq

/-- A field is found where it was. -/
theorem concurs_encodeField {field : FieldLayout} (h : Rearranged adds value value')
    (hname : ∀ name, field.place = .key name → ¬adds [] name)
    (hpart : ∀ type presence found found', field.content = .value type presence →
      valueAt? value field.place = some found → Rearranged
      (adds.inside field.place.step) found found' →
      Concurs (encode type found) (encode type found')) :
    Concurs (encodeField encode value field) (encodeField encode value' field) := by
  have hfound := valueAt?_rearranged h hname
  obtain ⟨place, content⟩ := field
  cases content with
  | constant | literal => exact Concurs.refl _
  | value type presence =>
    simp only [encodeField]
    dsimp only at hfound hpart
    cases hv : valueAt? value place <;> cases hv' : valueAt? value' place <;> rw [hv, hv'] at hfound
    · exact Concurs.refl _
    · cases hfound
    · cases hfound
    · cases hfound with
      | some hrearranged =>
        have hwritten := (hpart type presence _ _ rfl hv hrearranged).inside place.step
        cases presence with
        | none => exact hwritten
        | some bit =>
          dsimp only
          rw [← hrearranged.isNull_eq]
          split
          · exact Concurs.refl _
          · exact hwritten

theorem concurs_encodeFields {fields : List FieldLayout}
    (h : ∀ field ∈ fields, Concurs (encodeField encode value field)
      (encodeField encode value' field)) :
    Concurs (fields.forM (encodeField encode value)) (fields.forM (encodeField encode value')) := by
  induction fields with
  | nil => exact Concurs.refl _
  | cons field rest ih =>
    exact (h field List.mem_cons_self).bind fun _ _ _ _ =>
      ih fun other hother => h other (List.mem_cons_of_mem _ hother)

theorem concurs_checkShape (shape : StructShape) (h : Rearranged adds value value') :
    Concurs (checkShape shape value) (checkShape shape value') := by
  cases h with
  | null | bool | number | string => exact Concurs.refl _
  | array =>
    cases shape with
    | empty | tuple => exact Concurs.refl _
    | object =>
      exact Concurs.of_fails (fun _ _ _ hrun => nomatch hrun) (fun _ _ _ hrun => nomatch hrun)
  | object =>
    cases shape with
    | empty | object => exact Concurs.refl _
    | tuple =>
      exact Concurs.of_fails (fun _ _ _ hrun => nomatch hrun) (fun _ _ _ hrun => nomatch hrun)

/-- The bytes of a struct are the same if those of its fields are. -/
theorem concurs_encodeStruct {s : StructLayout} (h : Rearranged adds value value')
    (hname : ∀ field ∈ s.fields, ∀ name, field.place = .key name → ¬adds [] name)
    (hpart : ∀ field ∈ s.fields, ∀ type presence found found', field.content =
      .value type presence → valueAt? value field.place = some found → Rearranged
      (adds.inside field.place.step) found found' →
      Concurs (encode type found) (encode type found')) :
    Concurs (encodeStruct encode s value) (encodeStruct encode s value') := by
  have hbits : presenceBits s value = presenceBits s value' := by
    unfold presenceBits presentBits
    congr 2
    refine List.filterMap_congr fun field hfield => ?_
    rw [isPresent_eq (valueAt?_rearranged h (hname field hfield))]
  have hfields : Concurs (s.fields.forM (encodeField encode value))
      (s.fields.forM (encodeField encode value')) :=
    concurs_encodeFields fun field hfield =>
      concurs_encodeField h (hname field hfield) (hpart field hfield)
  refine (concurs_checkShape s.shape h).bind fun _ _ _ _ => ?_
  split
  · exact Concurs.refl _
  · rw [hbits]
    exact (Concurs.refl _).bind fun _ _ _ _ => hfields

/-! ### Padding and enums -/

theorem concurs_encodePadded {inner : TypeId} {size : ℕ}
    (h : Concurs (encode inner value) (encode inner value')) :
    Concurs (encodePadded encode inner size value) (encodePadded encode inner size value') :=
  (Concurs.refl _).bind fun _ _ _ _ => h.bind fun _ _ _ _ => Concurs.refl _

/-- Where the discriminant stands. -/
def discriminantStep (e : EnumLayout) : PathStep :=
  match e.shape with
  | .object => .key e.target
  | .tuple => .index 0

/-- The variant that the discriminant selects. -/
def selected? (e : EnumLayout) (value : Json) : Option VariantLayout :=
  (discriminant? e value).bind fun found =>
    e.variants.find? fun variant => variant.dispatch.agree found

theorem discriminant?_rearranged {e : EnumLayout} (h : Rearranged adds value value')
    (hname : e.shape = .object → ¬adds [] e.target) :
    Option.Rel (Rearranged (adds.inside (discriminantStep e))) (discriminant? e value)
      (discriminant? e value') := by
  unfold discriminant? discriminantStep
  cases hshape : e.shape with
  | object => exact h.member? (hname hshape)
  | tuple => exact h.item? 0

/-- The payload is the value itself, or what stands behind the discriminant. -/
theorem payloadOf_rearranged (shape : EnumShape) (variant : VariantLayout)
    (h : Rearranged adds value value') :
    payloadOf shape variant value = value ∧ payloadOf shape variant value' = value' ∨
      ∃ first rest first' rest', value = .array (first :: rest) ∧
        value' = .array (first' :: rest') ∧ payloadOf shape variant value = .array rest ∧
        payloadOf shape variant value' = .array rest' := by
  cases shape with
  | object => exact .inl ⟨rfl, rfl⟩
  | tuple =>
    cases h with
    | null | bool | number | string | object => exact .inl ⟨rfl, rfl⟩
    | @array _ items items' length _ =>
      match items, items', length with
      | [], [], _ => exact .inl ⟨rfl, rfl⟩
      | first :: rest, first' :: rest', _ =>
        cases hembedded : variant.embeddedTag with
        | true => exact .inl (by simp only [payloadOf, hembedded, if_true, and_self])
        | false => exact .inr ⟨first, rest, first', rest', rfl, rfl, by simp [payloadOf, hembedded]⟩

/-- The same variant is selected, and its payload has the same bytes. -/
theorem concurs_encodeEnum {e : EnumLayout} (h : Rearranged adds value value')
    (hname : e.shape = .object → ¬adds [] e.target)
    (hnone : ∀ found, discriminant? e value = some found →
      ∀ place name, ¬adds (discriminantStep e :: place) name)
    (hpayload : ∀ variant, selected? e value = some variant →
      Concurs (encode variant.payload (payloadOf e.shape variant value))
        (encode variant.payload (payloadOf e.shape variant value'))) :
    Concurs (encodeEnum encode e value) (encodeEnum encode e value') := by
  have hfound := discriminant?_rearranged h hname
  cases hv : discriminant? e value <;> cases hv' : discriminant? e value' <;> rw [hv, hv'] at hfound
  case none.none =>
    refine Concurs.of_fails (fun s a t hrun => ?_) (fun s a t hrun => ?_) <;>
    · obtain ⟨found, mid, hlook, -⟩ := exists_of_bind_ok hrun
      have hsome := (discriminant_of_ok hlook).1
      simp [hv, hv'] at hsome
  case some.some found found' =>
    cases hfound with
    | some hrearranged =>
      -- nothing is added to what is compared
      have hagree : ∀ known : Json, known.agree found = known.agree found' := fun known =>
        Json.agree_rearranged known (hrearranged.mono fun place name => hnone found hv place name)
      unfold encodeEnum
      rw [discriminant_eq hv, discriminant_eq hv', pure_bind, pure_bind]
      simp only [← hagree]
      cases hvariant : e.variants.find? fun variant => variant.dispatch.agree found with
      | none =>
        exact Concurs.of_fails (fun _ _ _ hrun => nomatch hrun) (fun _ _ _ hrun => nomatch hrun)
      | some variant =>
        have hselected : selected? e value = some variant := by
          rw [selected?, hv]
          exact hvariant
        exact (Concurs.refl _).bind fun _ _ _ _ =>
          (hpayload variant hselected).inside (.variant variant.name)
  all_goals cases hfound

end Codec

namespace Layout

/-- The names that a struct has for its fields, and an enum for its discriminant. -/
def Mentions : Layout → String → Prop
  | .struct s, name => ∃ field ∈ s.fields, field.place = .key name
  | .enum e, name => e.shape = .object ∧ e.target = name
  | _, _ => False

end Layout

/-- What reads a part of a value. -/
inductive Reader where
  /-- The part is encoded as a type. -/
  | type (id : TypeId)
  /-- The part is compared with the discriminants of an enum. -/
  | comparison

namespace Arena

open Codec (discriminant? discriminantStep selected? payloadOf valueAt?)

/-- What reads the part of a value at a place, while the value is encoded as a type. One
part can have many readers: an enum, its payload and whatever they are synonyms of all
read the same object. -/
inductive ReadsAs (arena : Arena) : TypeId → Json → List PathStep → Reader → Prop where
  | self (id : TypeId) (value : Json) : ReadsAs arena id value [] (.type id)
  | synonym {id target : TypeId} {type : CompiledType} {value : Json} {place : List PathStep}
      {reader : Reader} (hid : arena.get? id = some type) (hl : type.layout = .synonym target)
      (h : ReadsAs arena target value place reader) :
      ReadsAs arena id value place reader
  | padded {id inner : TypeId} {type : CompiledType} {size : ℕ} {value : Json}
      {place : List PathStep} {reader : Reader} (hid : arena.get? id = some type)
      (hl : type.layout = .padded inner size) (h : ReadsAs arena inner value place reader) :
      ReadsAs arena id value place reader
  | field {id target : TypeId} {type : CompiledType} {s : StructLayout} {field : FieldLayout}
      {presence : Option ℕ} {value found : Json} {place : List PathStep} {reader : Reader}
      (hid : arena.get? id = some type) (hl : type.layout = .struct s) (hfield : field ∈ s.fields)
      (hcontent : field.content = .value target presence)
      (hfound : valueAt? value field.place = some found)
      (h : ReadsAs arena target found place reader) :
      ReadsAs arena id value (field.place.step :: place) reader
  | element {id : TypeId} {type : CompiledType} {a : ArrayLayout} {value item : Json} {position : ℕ}
      {place : List PathStep} {reader : Reader} (hid : arena.get? id = some type)
      (hl : type.layout = .array a)
      (hitem : value.item? position = some item) (h : ReadsAs arena a.element item place reader) :
      ReadsAs arena id value (.index position :: place) reader
  | item {id element : TypeId} {type : CompiledType} {limit : Option ℕ} {value item : Json}
      {position : ℕ} {place : List PathStep} {reader : Reader} (hid : arena.get? id = some type)
      (hl : type.layout = .list element limit) (hitem : value.item? position = some item)
      (h : ReadsAs arena element item place reader) :
      ReadsAs arena id value (.index position :: place) reader
  | discriminant {id : TypeId} {type : CompiledType} {e : EnumLayout} {value found : Json}
      (hid : arena.get? id = some type) (hl : type.layout = .enum e)
      (hfound : discriminant? e value = some found) :
      ReadsAs arena id value [discriminantStep e] .comparison
  | payload {id : TypeId} {type : CompiledType} {e : EnumLayout} {variant : VariantLayout}
      {value : Json} {place : List PathStep} {reader : Reader} (hid : arena.get? id = some type)
      (hl : type.layout = .enum e) (hselected : selected? e value = some variant)
      (hwhole : payloadOf e.shape variant value = value)
      (h : ReadsAs arena variant.payload value place reader) :
      ReadsAs arena id value place reader
  /-- The payload starts behind the discriminant. -/
  | behind {id : TypeId} {type : CompiledType} {e : EnumLayout} {variant : VariantLayout}
      {first : Json} {rest : List Json} {position : ℕ} {place : List PathStep} {reader : Reader}
      (hid : arena.get? id = some type) (hl : type.layout = .enum e)
      (hselected : selected? e (.array (first :: rest)) = some variant)
      (hrest : payloadOf e.shape variant (.array (first :: rest)) = .array rest)
      (h : ReadsAs arena variant.payload (.array rest) (.index position :: place) reader) :
      ReadsAs arena id (.array (first :: rest)) (.index (position + 1) :: place) reader

/-- A name that no reader of a place mentions, if the place is no discriminant and inside none. -/
def Spare (arena : Arena) (id : TypeId) (value : Json) : Additions := fun place name =>
  (∀ part type, arena.ReadsAs id value place (.type part) → arena.get? part = some type →
    ¬type.layout.Mentions name) ∧
    ∀ front, arena.ReadsAs id value front .comparison → ¬front <+: place

/-- A type from which one can come to another one. -/
def RefersTo (arena : Arena) (id part : TypeId) : Prop :=
  ∃ type, arena.get? id = some type ∧ part ∈ type.layout.references

/-- No type that can be come to is written as JSON text. -/
def Textless (arena : Arena) (id : TypeId) : Prop :=
  ∀ part type, Relation.ReflTransGen arena.RefersTo id part → arena.get? part = some type →
    type.layout ≠ .primitive .json

variable {arena : Arena} {id target : TypeId} {type : CompiledType} {value value' found : Json}

theorem Textless.part (h : arena.Textless id) (hid : arena.get? id = some type)
    (hpart : target ∈ type.layout.references) : arena.Textless target :=
  fun part type' hpath => h part type' (.head ⟨type, hid, hpart⟩ hpath)

/-- A discriminant is always a part of a value, not the value itself. -/
theorem ReadsAs.ne_nil {place : List PathStep} {reader : Reader}
    (h : arena.ReadsAs id value place reader) (hreader : reader = .comparison) : place ≠ [] := by
  induction h with
  | self => cases hreader
  | synonym _ _ _ ih | padded _ _ _ ih | payload _ _ _ _ _ ih => exact ih hreader
  | field | element | item | discriminant | behind => exact List.cons_ne_nil _ _

/-- Types that refer to each other only, and are not written as text. -/
theorem textless_of_closed {ids : List TypeId} (hid : id ∈ ids)
    (h : ∀ part ∈ ids, ∀ type ∈ arena.get? part,
      type.layout ≠ .primitive .json ∧ ∀ other ∈ type.layout.references, other ∈ ids) :
        arena.Textless id := by
  have hpath : ∀ part, Relation.ReflTransGen arena.RefersTo id part → part ∈ ids := by
    intro part hpath
    induction hpath with
    | refl => exact hid
    | tail _ hstep ih =>
      obtain ⟨type, htype, hpart⟩ := hstep
      exact (h _ ih type htype).2 _ hpart
  exact fun part type hreached htype => (h part (hpath part hreached) type htype).1

/-- Numbers that are read directly are not text either. -/
theorem Textless.carries (h : arena.Textless id) {p : Primitive}
    (hp : arena.Carries id p) : p ≠ .json := by
  induction hp with
  | primitive hid hl =>
    rintro rfl
    exact h _ _ .refl hid hl
  | synonym hid hl _ ih => exact ih (h.part hid (hl ▸ List.mem_singleton_self _))

/-! ### Readers by layout -/

/-- A struct reads its value, or its fields read what they are given. -/
theorem readsAs_struct {s : StructLayout} (hid : arena.get? id = some type)
    (hl : type.layout = .struct s) {place : List PathStep} {reader : Reader}
    (h : arena.ReadsAs id value place reader) :
    place = [] ∧ reader = .type id ∨ ∃ field ∈ s.fields, ∃ target presence found inner,
      field.content = .value target presence ∧ valueAt? value field.place = some found ∧
      place = field.place.step :: inner ∧ arena.ReadsAs target found inner reader := by
  cases h with
  | self => exact .inl ⟨rfl, rfl⟩
  | field hid' hl' hfield hcontent hfound h =>
    obtain rfl := Option.some.inj (hid.symm.trans hid')
    obtain rfl := Layout.struct.inj (hl.symm.trans hl')
    exact .inr ⟨_, hfield, _, _, _, _, hcontent, hfound, rfl, h⟩
  | synonym hid' hl' | padded hid' hl' | element hid' hl' | item hid' hl' | discriminant hid' hl'
    | payload hid' hl'
  | behind hid' hl' =>
    obtain rfl := Option.some.inj (hid.symm.trans hid')
    cases hl.symm.trans hl'

theorem readsAs_struct_self {s : StructLayout} (hid : arena.get? id = some type)
    (hl : type.layout = .struct s) {reader : Reader} (h : arena.ReadsAs id value [] reader) :
    reader = .type id := by
  rcases readsAs_struct hid hl h with ⟨-, hreader⟩ | ⟨_, -, _, _, _, _, -, -, hplace, -⟩
  · exact hreader
  · cases hplace

theorem readsAs_struct_field {s : StructLayout} (hid : arena.get? id = some type)
    (hl : type.layout = .struct s) {step : PathStep} {inner : List PathStep} {reader : Reader}
    (h : arena.ReadsAs id value (step :: inner) reader) :
    ∃ field ∈ s.fields, ∃ target presence found, field.content = .value target presence ∧
      valueAt? value field.place = some found ∧ arena.ReadsAs target found inner reader := by
  rcases readsAs_struct hid hl h with
    ⟨hplace, -⟩ | ⟨field, hfield, target, presence, found, _, hcontent, hfound, hplace, h⟩
  · cases hplace
  · cases hplace
    exact ⟨field, hfield, target, presence, found, hcontent, hfound, h⟩

/-- An enum of objects reads its value, compares a member of it, and has the value read by a
payload. -/
theorem readsAs_enum {e : EnumLayout} (hid : arena.get? id = some type) (hl : type.layout = .enum e)
    (hshape : e.shape = .object) {place : List PathStep} {reader : Reader}
    (h : arena.ReadsAs id value place reader) :
    place = [] ∧ reader = .type id ∨ place = [.key e.target] ∧ reader = .comparison ∨
      ∃ variant, selected? e value = some variant ∧
        arena.ReadsAs variant.payload value place reader := by
  cases h with
  | self => exact .inl ⟨rfl, rfl⟩
  | discriminant hid' hl' =>
    obtain rfl := Option.some.inj (hid.symm.trans hid')
    obtain rfl := Layout.enum.inj (hl.symm.trans hl')
    exact .inr (.inl ⟨by rw [discriminantStep, hshape], rfl⟩)
  | payload hid' hl' hselected _ h =>
    obtain rfl := Option.some.inj (hid.symm.trans hid')
    obtain rfl := Layout.enum.inj (hl.symm.trans hl')
    exact .inr (.inr ⟨_, hselected, h⟩)
  | behind hid' hl' _ hrest =>
    obtain rfl := Option.some.inj (hid.symm.trans hid')
    obtain rfl := Layout.enum.inj (hl.symm.trans hl')
    rw [hshape] at hrest
    cases hrest
  | synonym hid' hl' | padded hid' hl' | field hid' hl' | element hid' hl' | item hid' hl' =>
    obtain rfl := Option.some.inj (hid.symm.trans hid')
    cases hl.symm.trans hl'

/-! ### What is spare inside -/

/-- What is spare for a type is spare for a type that reads the same value. -/
theorem Spare.same
    (h : ∀ place reader, arena.ReadsAs target value place reader →
      arena.ReadsAs id value place reader)
    (place : List PathStep) (name : String) (hspare : arena.Spare id value place name) :
    arena.Spare target value place name :=
  ⟨fun part type hread => hspare.1 part type (h _ _ hread),
    fun front hread => hspare.2 front (h _ _ hread)⟩

/-- What is spare inside a part is spare for a type that reads the part. -/
theorem Spare.inside {step : PathStep}
    (h : ∀ place reader, arena.ReadsAs target found place reader →
      arena.ReadsAs id value (step :: place) reader)
    (place : List PathStep) (name : String)
    (hspare : (arena.Spare id value).inside step place name) :
    arena.Spare target found place name :=
  ⟨fun part type hread => hspare.1 part type (h _ _ hread),
    fun front hread hfront => hspare.2 (step :: front) (h _ _ hread)
    (List.cons_prefix_cons.2 ⟨rfl, hfront⟩)⟩

/-- What the type itself mentions is not spare. -/
theorem not_spare {name : String} (hid : arena.get? id = some type)
    (hname : type.layout.Mentions name) :
    ¬arena.Spare id value [] name :=
  fun hspare => hspare.1 id type (.self id value) hid hname

/-- What is spare behind the discriminant is spare for the payload. -/
theorem Spare.behind {first : Json} {rest : List Json} (h : ∀ position place reader,
      arena.ReadsAs target (.array rest) (.index position :: place) reader →
      arena.ReadsAs id (.array (first :: rest)) (.index (position + 1) :: place) reader)
    (place : List PathStep) (name : String)
    (hspare : (arena.Spare id (.array (first :: rest))).behind place name) :
    arena.Spare target (.array rest) place name := by
  match place, hspare with
  | .index position :: place, hspare =>
    refine ⟨fun part type hread => hspare.1 part type (h _ _ _ hread), fun front hread hfront => ?_⟩
    cases front with
    | nil => exact hread.ne_nil rfl rfl
    | cons step front =>
      obtain ⟨rfl, hprefix⟩ := List.cons_prefix_cons.1 hfront
      exact hspare.2 _ (h _ _ _ hread) (List.cons_prefix_cons.2 ⟨rfl, hprefix⟩)

/-! ### The run -/

/-- At one level fewer, values that have been rearranged with spare members concur. -/
def ConcursWithin (arena : Arena) (levels : ℕ) : Prop :=
  ∀ id value value', arena.Textless id → Rearranged (arena.Spare id value) value value' →
    Concurs (arena.encodeWithin levels id value) (arena.encodeWithin levels id value')

section Step

variable {levels : ℕ} (ih : arena.ConcursWithin levels) (hid : arena.get? id = some type)
  (htext : arena.Textless id) (h : Rearranged (arena.Spare id value) value value')

include ih hid htext h

theorem concurs_struct {s : StructLayout} (hl : type.layout = .struct s) :
    Concurs (Codec.encodeStruct (arena.encodeWithin levels) s value)
      (Codec.encodeStruct (arena.encodeWithin levels) s value') := by
  refine Codec.concurs_encodeStruct h (fun field hfield name hplace => ?_)
    fun field hfield target presence found found' hcontent hfound hpart => ?_
  · exact not_spare hid (hl ▸ ⟨field, hfield, hplace⟩)
  · have hreference : target ∈ type.layout.references := by
      rw [hl]
      exact List.mem_filterMap.2 ⟨field, hfield, by rw [FieldLayout.reference?, hcontent]⟩
    exact ih target found found' (htext.part hid hreference)
      (hpart.mono (Spare.inside fun _ _ => .field hid hl hfield hcontent hfound))

theorem concurs_array {a : ArrayLayout} (hl : type.layout = .array a)
    (hnumeric : ∀ p, a.numeric = some p → arena.Carries a.element p) :
    Concurs (Codec.encodeArray (arena.encodeWithin levels) a value)
      (Codec.encodeArray (arena.encodeWithin levels) a value') := by
  have helement : a.element ∈ type.layout.references := hl ▸ List.mem_singleton_self _
  refine Codec.concurs_encodeArray h fun position item item' hitem hpart => ?_
  unfold Codec.elementEncoder
  cases hp : a.numeric with
  | some p =>
    exact Codec.concurs_primitive ((htext.part hid helement).carries (hnumeric p hp)) hpart
  | none =>
    exact ih a.element item item' (htext.part hid helement)
      (hpart.mono (Spare.inside fun _ _ => .element hid hl hitem))

theorem concurs_list {element : TypeId} {limit : Option ℕ}
    (hl : type.layout = .list element limit) :
    Concurs (Codec.encodeList (arena.encodeWithin levels) element limit value)
      (Codec.encodeList (arena.encodeWithin levels) element limit value') := by
  have helement : element ∈ type.layout.references := hl ▸ List.mem_singleton_self _
  exact Codec.concurs_encodeList h fun position item item' hitem hpart =>
    ih element item item' (htext.part hid helement)
      (hpart.mono (Spare.inside fun _ _ => .item hid hl hitem))

theorem concurs_enum {e : EnumLayout} (hl : type.layout = .enum e) :
    Concurs (Codec.encodeEnum (arena.encodeWithin levels) e value)
      (Codec.encodeEnum (arena.encodeWithin levels) e value') := by
  refine Codec.concurs_encodeEnum h (fun hshape => not_spare hid (hl ▸ ⟨hshape, rfl⟩))
    (fun found hfound place name hspare => ?_) fun variant hselected => ?_
  · exact hspare.2 _ (.discriminant hid hl hfound) (List.prefix_append [_] place)
  · have hreference : variant.payload ∈ type.layout.references := by
      rw [hl]
      obtain ⟨found, -, hfind⟩ := Option.bind_eq_some_iff.1 hselected
      exact List.mem_cons_of_mem _ (List.mem_map_of_mem (List.mem_of_find?_eq_some hfind))
    have htext' := htext.part hid hreference
    rcases Codec.payloadOf_rearranged e.shape variant h with
      ⟨hwhole, hwhole'⟩ | ⟨first, rest, first', rest', rfl, rfl, hrest, hrest'⟩
    · rw [hwhole, hwhole']
      exact ih variant.payload value value' htext'
        (h.mono (Spare.same fun _ _ => .payload hid hl hselected hwhole))
    · rw [hrest, hrest']
      exact ih variant.payload _ _ htext'
        (h.behind.mono (Spare.behind fun _ _ _ => .behind hid hl hselected hrest))

end Step

theorem concursWithin (hgrounded : arena.Grounded) (levels : ℕ) : arena.ConcursWithin levels := by
  induction levels with
  | zero => exact fun _ _ _ _ _ => Concurs.refl _
  | succ levels ih =>
    intro id value value' htext h
    cases hid : arena.get? id with
    | none =>
      rw [encodeWithin_of_empty hid, encodeWithin_of_empty hid]
      exact Concurs.refl _
    | some type =>
      rw [encodeWithin_succ hid, encodeWithin_succ hid]
      cases hl : type.layout with
      | primitive p =>
        refine Codec.concurs_primitive (fun hp => ?_) h
        exact htext id type .refl hid (hp ▸ hl)
      | struct s => exact concurs_struct ih hid htext h hl
      | array a =>
        exact concurs_array ih hid htext h hl fun p => (hgrounded.builds id type hid).numeric a p hl
      | enum e => exact concurs_enum ih hid htext h hl
      | synonym target =>
        exact ih target value value' (htext.part hid (hl ▸ List.mem_singleton_self _))
          (h.mono (Spare.same fun _ _ => .synonym hid hl))
      | list element limit => exact concurs_list ih hid htext h hl
      | padded inner size =>
        exact Codec.concurs_encodePadded
          (ih inner value value' (htext.part hid (hl ▸ List.mem_singleton_self _))
          (h.mono (Spare.same fun _ _ => .padded hid hl)))
      | bytes count => exact Codec.concurs_encodeBytes h

end Arena

end Wireform
