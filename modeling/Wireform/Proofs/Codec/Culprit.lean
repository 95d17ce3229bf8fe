import Wireform.Proofs.Codec.Rearrangement

/-!
# Who is to blame for a failure

Encoding a value hands parts of it on to other encoders, and a failure gets a step of its path from
each that it passes on its way out. So the path tells which parts have been handed on, down to the
culprit: the value whose own encoder has failed, and none that this one has called.

* `Layout.HandsOn`: what a layout hands on, and by which step.
* `Codec.attributes_encodeStep`: one level of a layout.
* `Arena.Raises`, `Arena.Trail`: the culprit, and the way to it over parts of the value.
* `Arena.Trail.at?`: what stands at a path.
* `Arena.blames_of_fails`: **the path of a failure leads to the culprit, or to where no part is
  handed on**.
-/

namespace Wireform

/-! ### Paths into a value -/

/-- What stands at a path. A step into a variant stays where it is, and a constant is
no part of any value. -/
def Json.at? (value : Json) : List PathStep → Option Json
  | [] => some value
  | .key name :: rest => (value.member? name).bind (·.at? rest)
  | .index position :: rest => (value.item? position).bind (·.at? rest)
  | .variant _ :: rest => value.at? rest
  | .constant :: _ => none

@[simp]
theorem Json.at?_key (value : Json) (name : String) : value.at? [.key name] = value.member? name :=
  Option.bind_fun_some _

@[simp]
theorem Json.at?_index (value : Json) (position : ℕ) :
    value.at? [.index position] = value.item? position :=
  Option.bind_fun_some _

theorem Json.at?_append (value : Json) (front back : List PathStep) :
    value.at? (front ++ back) = (value.at? front).bind (·.at? back) := by
  induction front generalizing value with
  | nil => rfl
  | cons step rest ih =>
    cases step with
    | key name =>
      rw [List.cons_append, at?, at?, Option.bind_assoc]
      exact Option.bind_congr fun part _ => ih part
    | index position =>
      rw [List.cons_append, at?, at?, Option.bind_assoc]
      exact Option.bind_congr fun part _ => ih part
    | variant name => exact ih value
    | constant => rfl

namespace Codec

/-! ### Handing on -/

/-- What encodes a value. -/
inductive Callee where
  | type (id : TypeId)
  | primitive (p : Primitive)
  /-- A byte of a run of bytes. -/
  | byte

/-- A value, and what encodes it. -/
structure Site where
  callee : Callee
  value : Json

/-- Encodes the value of a site. -/
def Site.run (encode : Encoder) (site : Site) : Encoding Unit :=
  match site.callee with
  | .type id => encode id site.value
  | .primitive p => p.encode site.value
  | .byte => encodeByte site.value

/-- What encodes the elements of an array. -/
def elementCallee (a : ArrayLayout) : Callee :=
  match a.numeric with
  | some p => .primitive p
  | none => .type a.element

/-- What is handed on. -/
inductive Handover where
  /-- The value itself, or what stands in it where the step leads to, or the constant that the step
  names. -/
  | part
  /-- The items behind the discriminant. -/
  | behind
  /-- The tag of a variant. -/
  | tag
deriving DecidableEq

end Codec

open Codec in
/-- What encoding a value through a layout hands on, and the step of the path that is for it. -/
inductive Layout.HandsOn (value : Json) : Layout → Handover → Option PathStep → Site → Prop where
  | synonym {target : TypeId} : HandsOn value (.synonym target) .part none ⟨.type target, value⟩
  | padded {inner : TypeId} {size : ℕ} :
      HandsOn value (.padded inner size) .part none ⟨.type inner, value⟩
  | field {s : StructLayout} {field : FieldLayout} {type : TypeId} {presence : Option ℕ}
      {part : Json} (mem : field ∈ s.fields) (content : field.content = .value type presence)
      (found : valueAt? value field.place = some part) :
      HandsOn value (.struct s) .part (some field.place.step) ⟨.type type, part⟩
  | constant {s : StructLayout} {field : FieldLayout} {type : TypeId} {given : Json} {verify : Bool}
      (mem : field ∈ s.fields) (content : field.content = .constant type given verify) :
      HandsOn value (.struct s) .part (some .constant) ⟨.type type, given⟩
  | element {a : ArrayLayout} {position : ℕ} {item : Json}
      (found : value.item? position = some item) :
      HandsOn value (.array a) .part (some (.index position)) ⟨elementCallee a, item⟩
  | item {element : TypeId} {maxLength : Option ℕ} {position : ℕ} {item : Json}
      (found : value.item? position = some item) :
      HandsOn value (.list element maxLength) .part (some (.index position)) ⟨.type element, item⟩
  | byte {count position : ℕ} {item : Json} (found : value.item? position = some item) :
      HandsOn value (.bytes count) .part (some (.index position)) ⟨.byte, item⟩
  | payload {e : EnumLayout} {variant : VariantLayout} (selected : selected? e value = some variant)
      (whole : e.shape = .object ∨ variant.embeddedTag = true) :
      HandsOn value (.enum e) .part (some (.variant variant.name)) ⟨.type variant.payload, value⟩
  | behind {e : EnumLayout} {variant : VariantLayout} {first : Json} {rest : List Json}
      (selected : selected? e value = some variant) (shape : e.shape = .tuple)
      (cut : variant.embeddedTag = false)
      (items : value = .array (first :: rest)) :
      HandsOn value (.enum e) .behind (some (.variant variant.name))
        ⟨.type variant.payload, .array rest⟩
  | tag {e : EnumLayout} {variant : VariantLayout} (selected : selected? e value = some variant) :
      HandsOn value (.enum e) .tag none ⟨.type e.tag, variant.tag⟩

open Codec in
/-- A part that is handed on stands where the step leads to, unless it is a constant. -/
theorem Layout.HandsOn.at? {value : Json} {layout : Layout} {step : Option PathStep} {site : Site}
    (h : layout.HandsOn value .part step site) (hconstant : .constant ∉ step.toList) :
    value.at? step.toList = some site.value := by
  cases h with
  | synonym | padded | payload => rfl
  | constant => exact absurd List.mem_cons_self hconstant
  | @field s field type presence part mem content found =>
    obtain ⟨place, _⟩ := field
    cases place with
    | key name => exact (Json.at?_key value name).trans found
    | position index => exact (Json.at?_index value index).trans found
    | detached => cases found
  | element found | item found | byte found => exact (Json.at?_index value _).trans found

/-- Whether a layout is that of an enum. -/
def Layout.isEnum : Layout → Bool
  | .enum _ => true
  | _ => false

/-- Only an enum hands on what is no part of the value. -/
theorem Layout.HandsOn.isEnum {value : Json} {layout : Layout} {role : Codec.Handover}
    {step : Option PathStep} {site : Codec.Site} (h : layout.HandsOn value role step site)
    (hrole : role ≠ .part) : layout.isEnum = true := by
  cases h with
  | payload | behind | tag => rfl
  | synonym | padded | field | constant | element | item | byte => exact absurd rfl hrole

namespace Codec

/-! ### Own failures -/

/-- Encoders in which a failure does not show. -/
def muted (encode : Encoder) : Encoder := fun id value buffer =>
  match encode id value buffer with
  | .ok a after => .ok a after
  | .error _ after => .error .outOfFuel after

/-- An encoding fails, at some buffer. -/
def Fails {α : Type} (x : Encoding α) (failure : CodecFailure) : Prop :=
  ∃ buffer after, x buffer = .error (.failure failure) after

/-- `y` is `x` with other encoders of what is handed on: when `x` has a result so has `y`, and
when `x` fails, then either `y` fails in the same way, without a path, or something that is
handed on has failed. -/
structure Attributes {α : Type} (encode : Encoder)
    (links : Handover → Option PathStep → Site → Prop) (x y : Encoding α) : Prop where
  ok : ∀ {buffer a after}, x buffer = .ok a after → y buffer = .ok a after
  failed : ∀ {buffer failure after}, x buffer = .error (.failure failure) after →
    failure.path = [] ∧ y buffer = .error (.failure failure) after ∨
      ∃ role step site inner, links role step site ∧ Fails (site.run encode) inner ∧
        failure = ⟨step.toList ++ inner.path, inner.cause⟩

namespace Attributes

variable {α β : Type} {encode : Encoder} {links : Handover → Option PathStep → Site → Prop}
  {x y : Encoding α}

theorem pure (a : α) : Attributes encode links (Pure.pure a) (Pure.pure a) := ⟨id, nofun⟩

theorem fail (cause : CodecError) :
    Attributes encode links (failWith (α := α) cause) (failWith cause) where
  ok := nofun
  failed := by
    rintro buffer failure after ⟨⟩
    exact .inl ⟨rfl, rfl⟩

theorem emit (bytes : List UInt8) :
    Attributes encode links (Wireform.emit bytes) (Wireform.emit bytes) := ⟨id, nofun⟩

theorem bind {f g : α → Encoding β} (hxy : Attributes encode links x y)
    (hfg : ∀ a, Attributes encode links (f a) (g a)) :
    Attributes encode links (x >>= f) (y >>= g) where
  ok := by
    intro buffer b after hrun
    obtain ⟨a, mid, hx, hf⟩ := exists_of_bind_ok hrun
    rw [bind_of_ok (hxy.ok hx)]
    exact (hfg a).ok hf
  failed := by
    intro buffer failure after hrun
    cases hx : x buffer with
    | ok a mid =>
      rw [bind_of_ok hx] at hrun
      rw [bind_of_ok (hxy.ok hx)]
      exact (hfg a).failed hrun
    | error stop mid =>
      rw [bind_of_error hx] at hrun
      cases hrun
      exact (hxy.failed hx).imp_left fun ⟨hpath, hy⟩ => ⟨hpath, bind_of_error hy⟩

/-- What is handed on without a step. -/
theorem handed {role : Handover} (site : Site) {y : Encoding Unit} (hlink : links role none site)
    (hok : ∀ {buffer after}, site.run encode buffer = .ok () after → y buffer = .ok () after) :
    Attributes encode links (site.run encode) y where
  ok := hok
  failed := fun hrun => .inr ⟨role, none, site, _, hlink, ⟨_, _, hrun⟩, rfl⟩

/-- What is handed on one step further in. -/
theorem inside {role : Handover} {step : PathStep} (site : Site) {y : Encoding Unit}
    (hlink : links role (some step) site)
    (hok : ∀ {buffer after}, site.run encode buffer = .ok () after → y buffer = .ok () after) :
    Attributes encode links (Wireform.inside step (site.run encode)) (Wireform.inside step y) where
  ok := fun hrun => (inside_ok_iff step).2 (hok ((inside_ok_iff step).1 hrun))
  failed := by
    intro buffer failure after hrun
    cases hsite : site.run encode buffer with
    | ok a mid =>
      rw [(inside_ok_iff step).2 hsite] at hrun
      cases hrun
    | error stop mid =>
      cases stop with
      | failure inner =>
        rw [inside_of_failure step hsite] at hrun
        cases hrun
        exact .inr ⟨role, some step, site, inner, hlink, ⟨_, _, hsite⟩, rfl⟩
      | outOfFuel =>
        unfold Wireform.inside at hrun
        rw [hsite] at hrun
        cases hrun

end Attributes

variable {encode : Encoder} {links : Handover → Option PathStep → Site → Prop}

/-- What is composed of results, failures and bytes hands nothing on. -/
theorem composes_attributes :
    Composes fun x => Attributes encode links x x := ⟨.pure, .fail, .emit, .bind⟩

/-! ### Layouts -/

theorem muted_ok {id : TypeId} {value : Json} {buffer after : Array UInt8} {a : Unit}
    (h : encode id value buffer = .ok a after) : muted encode id value buffer = .ok a after := by
  unfold muted
  rw [h]

theorem muted_error {id : TypeId} {value : Json} {buffer after : Array UInt8}
    {stop : Stop CodecFailure} (h : encode id value buffer = .error stop after) :
    Starves buffer (muted encode id value) := by
  refine ⟨after, ?_⟩
  unfold muted
  rw [h]

theorem attributes_arrayItems {α : Type} {value : Json} {f g : List Json → Encoding α}
    (h : ∀ items, value = .array items → Attributes encode links (f items) (g items)) :
    Attributes encode links (arrayItems value >>= f) (arrayItems value >>= g) := by
  cases value with
  | array items => exact h items rfl
  | _ => exact .fail _

theorem attributes_objectMembers {α : Type} {value : Json} {f g : List (String × Json) → Encoding α}
    (h : ∀ members, value = .object members → Attributes encode links (f members) (g members)) :
    Attributes encode links (objectMembers value >>= f) (objectMembers value >>= g) := by
  cases value with
  | object members => exact h members rfl
  | _ => exact .fail _

theorem attributes_encodeField {s : StructLayout} {value : Json} {field : FieldLayout}
    (hmem : field ∈ s.fields) (hplaced : field.Placed s.shape) :
    Attributes encode (Layout.HandsOn value (.struct s)) (encodeField encode value field)
      (encodeField (muted encode) value field) := by
  obtain ⟨place, content⟩ := field
  cases content with
  | constant type given verify =>
    obtain rfl : place = .detached := hplaced
    exact .inside ⟨.type type, given⟩ (.constant hmem rfl) muted_ok
  | literal literal => exact .pure ()
  | value type presence =>
    have hinside : ∀ part, valueAt? value place = some part →
        Attributes encode (Layout.HandsOn value (.struct s))
        (Wireform.inside place.step (encode type part))
          (Wireform.inside place.step (muted encode type part)) := fun part hpart =>
      .inside ⟨.type type, part⟩ (.field hmem rfl hpart) muted_ok
    simp only [encodeField]
    split
    · next hfound => exact hinside _ hfound
    · next hfound =>
      split
      · exact .pure ()
      · exact hinside _ hfound
    · exact .pure ()
    · exact .fail _

theorem attributes_encodeStruct {s : StructLayout} (hs : s.Numbered) (value : Json) :
    Attributes encode (Layout.HandsOn value (.struct s)) (encodeStruct encode s value)
      (encodeStruct (muted encode) s value) := by
  have hfields : ∀ fields, fields ⊆ s.fields →
      Attributes encode (Layout.HandsOn value (.struct s)) (fields.forM (encodeField encode value))
        (fields.forM (encodeField (muted encode) value)) := by
    intro fields hsubset
    induction fields with
    | nil => exact .pure ()
    | cons field rest ih =>
      obtain ⟨hmem, hrest⟩ := List.cons_subset.1 hsubset
      exact (attributes_encodeField hmem (hs.placed field hmem)).bind fun _ => ih hrest
  refine (composes_attributes.checkShape s.shape value).bind fun _ => ?_
  split
  · exact .pure ()
  · exact (Attributes.emit _).bind fun _ => hfields s.fields (List.Subset.refl _)

/-- Items are handed on with their positions. -/
theorem attributes_encodeItems {x y : Json → Encoding Unit} (before : List Json) (items : List Json)
    (h : ∀ position item, (before ++ items)[position]? = some item →
      Attributes encode links (inside (.index position) (x item))
      (inside (.index position) (y item))) :
    Attributes encode links (encodeItems x before.length items)
      (encodeItems y before.length items) := by
  induction items generalizing before with
  | nil => exact .pure ()
  | cons item rest ih =>
    have hfirst : (before ++ item :: rest)[before.length]? = some item := by simp
    refine (h before.length item hfirst).bind fun _ => ?_
    have hrest := ih (before ++ [item]) (by simpa using h)
    rwa [List.length_append, List.length_singleton] at hrest

theorem run_elementCallee (a : ArrayLayout) (item : Json) :
    Site.run encode ⟨elementCallee a, item⟩ = elementEncoder encode a item := by
  unfold Site.run elementCallee elementEncoder
  cases a.numeric <;> rfl

theorem elementEncoder_muted_ok {a : ArrayLayout} {item : Json} {buffer after : Array UInt8}
    (h : elementEncoder encode a item buffer = .ok () after) :
    elementEncoder (muted encode) a item buffer = .ok () after := by
  unfold elementEncoder at *
  cases hnumeric : a.numeric with
  | some p => rwa [hnumeric] at h
  | none =>
    rw [hnumeric] at h
    exact muted_ok h

theorem attributes_encodeArray (a : ArrayLayout) (value : Json) :
    Attributes encode (Layout.HandsOn value (.array a)) (encodeArray encode a value)
      (encodeArray (muted encode) a value) := by
  refine attributes_arrayItems fun items hitems =>
    (composes_attributes.checkLength _ _).bind fun _ => ?_
  refine (Attributes.emit _).bind
    fun _ => attributes_encodeItems [] items fun position item hitem => ?_
  have hfound : value.item? position = some item := by rwa [hitems]
  unfold encodeElement
  split
  · exact .pure ()
  · rw [← run_elementCallee]
    refine .inside _ (.element hfound) fun hrun => ?_
    rw [run_elementCallee] at hrun
    exact elementEncoder_muted_ok hrun

theorem attributes_encodeList (element : TypeId) (maxLength : Option ℕ) (value : Json) :
    Attributes encode (Layout.HandsOn value (.list element maxLength))
      (encodeList encode element maxLength value)
      (encodeList (muted encode) element maxLength value) := by
  refine attributes_arrayItems fun items hitems =>
    (composes_attributes.checkLimit _ _).bind fun _ => ?_
  refine (Attributes.emit _).bind
    fun _ => attributes_encodeItems [] items fun position item hitem => ?_
  have hfound : value.item? position = some item := by rwa [hitems]
  exact .inside ⟨.type element, item⟩ (.item hfound) muted_ok

theorem attributes_encodeBytes (count : ℕ) (value : Json) :
    Attributes encode (Layout.HandsOn value (.bytes count)) (encodeBytes count value)
      (encodeBytes count value) := by
  refine attributes_arrayItems fun items hitems =>
    (composes_attributes.checkLength _ _).bind fun _ => ?_
  refine attributes_encodeItems [] items fun position item hitem => ?_
  have hfound : value.item? position = some item := by rwa [hitems]
  exact .inside ⟨.byte, item⟩ (.byte hfound) id

/-- What is padded is handed on; being too long for it is an own failure. -/
theorem attributes_encodePadded (inner : TypeId) (size : ℕ) (value : Json) :
    Attributes encode (Layout.HandsOn value (.padded inner size))
      (encodePadded encode inner size value)
      (encodePadded (muted encode) inner size value) where
  ok := by
    intro buffer a after hrun
    cases hinner : encode inner value buffer with
    | ok _ mid =>
      rwa [encodePadded_of_ok (muted_ok hinner), ← encodePadded_of_ok hinner]
    | error stop mid =>
      have herror : encodePadded encode inner size value buffer = .error stop mid :=
        bind_of_error (x := encode inner value) hinner
      rw [herror] at hrun
      cases hrun
  failed := by
    intro buffer failure after hrun
    cases hinner : encode inner value buffer with
    | ok _ mid =>
      rw [encodePadded_of_ok hinner] at hrun
      rw [encodePadded_of_ok (muted_ok hinner), hrun]
      split at hrun
      · cases hrun
        exact .inl ⟨rfl, rfl⟩
      · cases hrun
    | error stop mid =>
      have herror : encodePadded encode inner size value buffer = .error stop mid :=
        bind_of_error (x := encode inner value) hinner
      rw [herror] at hrun
      cases hrun
      exact .inr ⟨_, none, ⟨.type inner, value⟩, failure, .padded, ⟨_, _, hinner⟩, rfl⟩

theorem attributes_discriminant {α : Type} {e : EnumLayout} {value : Json} {f g : Json → Encoding α}
    (h : ∀ found, discriminant? e value = some found →
      Attributes encode links (f found) (g found)) :
    Attributes encode links (discriminant e value >>= f) (discriminant e value >>= g) := by
  unfold discriminant
  unfold discriminant? at h
  cases hshape : e.shape with
  | object =>
    rw [hshape] at h
    dsimp only
    rw [bind_assoc, bind_assoc]
    refine attributes_objectMembers fun members hmembers => ?_
    cases hfound : Assoc.get? members e.target with
    | some found => exact h found (by rw [hmembers]; exact hfound)
    | none => exact .fail _
  | tuple =>
    rw [hshape] at h
    dsimp only
    rw [bind_assoc, bind_assoc]
    refine attributes_arrayItems fun items hitems => ?_
    cases items with
    | cons first rest => exact h first (by rw [hitems]; rfl)
    | nil => exact .fail _

theorem exists_of_item?_zero {value first : Json} (h : value.item? 0 = some first) :
    ∃ rest, value = .array (first :: rest) := by
  cases value with
  | array items =>
    cases items with
    | cons _ rest =>
      obtain rfl := Option.some.inj h
      exact ⟨rest, rfl⟩
    | nil => cases h
  | _ => cases h

/-- The payload is the value itself, or the items behind the discriminant. -/
theorem handsOn_payload {e : EnumLayout} {value : Json} {variant : VariantLayout}
    (hselected : selected? e value = some variant) : ∃ role, Layout.HandsOn value (.enum e) role
      (some (.variant variant.name)) ⟨.type variant.payload, payloadOf e.shape variant value⟩ := by
  cases hshape : e.shape with
  | object => exact ⟨.part, .payload hselected (.inl hshape)⟩
  | tuple =>
    obtain ⟨found, hfound, -⟩ := Option.bind_eq_some_iff.1 hselected
    rw [discriminant?, hshape] at hfound
    obtain ⟨rest, rfl⟩ := exists_of_item?_zero hfound
    cases hembedded : variant.embeddedTag with
    | true =>
      have hwhole : payloadOf .tuple variant (.array (found :: rest)) = .array (found :: rest) :=
        if_pos hembedded
      rw [hwhole]
      exact ⟨.part, .payload hselected (.inr hembedded)⟩
    | false =>
      have hcut : payloadOf .tuple variant (.array (found :: rest)) = .array rest :=
        if_neg (Bool.eq_false_iff.1 hembedded)
      rw [hcut]
      exact ⟨.behind, .behind hselected hshape hembedded rfl⟩

/-- The tag is handed on, then the payload: the value itself, or the items behind the
discriminant. -/
theorem attributes_encodeEnum (e : EnumLayout) (value : Json) :
    Attributes encode (Layout.HandsOn value (.enum e)) (encodeEnum encode e value)
      (encodeEnum (muted encode) e value) := by
  refine attributes_discriminant fun found hfound => ?_
  cases hvariant : e.variants.find? fun variant => variant.dispatch.agree found with
  | none => exact .fail _
  | some variant =>
    have hselected : selected? e value = some variant := by
      rw [selected?, hfound]
      exact hvariant
    have htag : Attributes encode (Layout.HandsOn value (.enum e)) (encode e.tag variant.tag)
        (muted encode e.tag variant.tag) :=
      .handed ⟨.type e.tag, variant.tag⟩ (.tag hselected) muted_ok
    refine htag.bind fun _ => ?_
    obtain ⟨role, hlink⟩ := handsOn_payload hselected
    exact .inside ⟨.type variant.payload, payloadOf e.shape variant value⟩ hlink muted_ok

/-- **One level of a layout**: a failure is its own, or that of something handed on. -/
theorem attributes_encodeStep {layout : Layout} (hs : ∀ s, layout = .struct s → s.Numbered)
    (value : Json) :
    Attributes encode (layout.HandsOn value) (encodeStep encode layout value)
      (encodeStep (muted encode) layout value) := by
  cases layout with
  | primitive p => exact composes_attributes.primitive p value
  | struct s => exact attributes_encodeStruct (hs s rfl) value
  | array a => exact attributes_encodeArray a value
  | enum e => exact attributes_encodeEnum e value
  | synonym target => exact .handed ⟨.type target, value⟩ .synonym muted_ok
  | list element maxLength => exact attributes_encodeList element maxLength value
  | padded inner size => exact attributes_encodePadded inner size value
  | bytes count => exact attributes_encodeBytes count value

theorem repeats_muted {encode' : Encoder} {id : TypeId} {value : Json}
    (h : Repeats (encode id value) (encode' id value)) :
    Repeats (muted encode id value) (muted encode' id value) := by
  rcases h with hstarves | ⟨out, hx, hy⟩
  · exact .inl fun buffer => muted_error (hstarves buffer).choose_spec
  · cases out with
    | ok found =>
      exact .inr ⟨.ok found, fun buffer => muted_ok (hx buffer), fun buffer => muted_ok (hy buffer)⟩
    | error failure => exact .inl fun buffer => muted_error (hx buffer).choose_spec

/-- What fails at one buffer fails at all. -/
theorem does_of_fails {α : Type} {x y : Encoding α} {failure : CodecFailure} (h : Repeats x y)
    (hx : Fails x failure) : Does y (.error failure) := by
  obtain ⟨buffer, after, hrun⟩ := hx
  rcases h with hstarves | ⟨out, hx, hy⟩
  · obtain ⟨after', hafter⟩ := hstarves buffer
    rw [hrun] at hafter
    cases hafter
  · cases out with
    | ok found =>
      rw [hx buffer] at hrun
      cases hrun
    | error failure' =>
      obtain ⟨after', hafter⟩ := hx buffer
      rw [hrun] at hafter
      cases hafter
      exact hy

end Codec

/-! ### The culprit -/

namespace Arena

open Codec

variable {arena : Arena}

/-- Encodes the value of a site by its own encoder alone: no failure of another one that
this one calls shows. -/
def alone (arena : Arena) (site : Site) : Encoding Unit :=
  match site.callee with
  | .type id =>
    match arena.get? id with
    | some type => encodeStep (muted arena.encode) type.layout site.value
    | none => failWith (.unresolved id.index)
  | .primitive p => p.encode site.value
  | .byte => encodeByte site.value

/-- Encoding the value of a site fails, and it is this encoder that has raised the cause. -/
structure Raises (arena : Arena) (site : Site) (cause : CodecError) : Prop where
  run : Does (site.run arena.encode) (.error ⟨[], cause⟩)
  alone : Does (arena.alone site) (.error ⟨[], cause⟩)

/-- What encoding the value of a site hands on. -/
inductive HandsOn (arena : Arena) : Site → Handover → Option PathStep → Site → Prop where
  | type {id : TypeId} {type : CompiledType} {value : Json} {role : Handover}
      {step : Option PathStep} {site : Site} (hid : arena.get? id = some type)
      (link : type.layout.HandsOn value role step site) :
      HandsOn arena ⟨.type id, value⟩ role step site

/-- The way from a site to another one over parts of values, with the steps of the path. -/
inductive Trail (arena : Arena) : Site → List PathStep → Site → Prop where
  | here (site : Site) : Trail arena site [] site
  | through {site next last : Site} {step : Option PathStep} {path : List PathStep}
      (link : arena.HandsOn site .part step next) (rest : Trail arena next path last) :
      Trail arena site (step.toList ++ path) last

/-- A site that hands on no part of its value is at the end of any way. -/
theorem Trail.path_eq_nil {site last : Site} {path : List PathStep} (h : arena.Trail site path last)
    (hnone : ∀ step next, ¬arena.HandsOn site .part step next) : path = [] := by
  cases h with
  | here => rfl
  | through link _ => exact absurd link (hnone _ _)

/-- **What the path leads to stands there in the value**, unless it leads over a constant. -/
theorem Trail.at? {site last : Site} {path : List PathStep} (h : arena.Trail site path last)
    (hconstant : .constant ∉ path) : site.value.at? path = some last.value := by
  induction h with
  | here site => rfl
  | through link rest ih =>
    obtain ⟨hstep, hpath⟩ := not_or.1 (mt List.mem_append.2 hconstant)
    obtain ⟨-, link⟩ := link
    rw [Json.at?_append, link.at? hstep]
    exact ih hpath

/-- Why a site fails: the path leads over parts to a culprit, or to a place where something is
handed on that is no part, and fails with the rest of the path. -/
inductive Blames (arena : Arena) (site : Site) (failure : CodecFailure) : Prop where
  | culprit {culprit : Site} (trail : arena.Trail site failure.path culprit)
      (raises : arena.Raises culprit failure.cause)
  | departure {front back : List PathStep} {whole handed : Site} {role : Handover}
      {step : Option PathStep} (trail : arena.Trail site front whole)
      (link : arena.HandsOn whole role step handed) (departs : role ≠ .part)
      (fails : Does (handed.run arena.encode) (.error ⟨back, failure.cause⟩))
      (path : failure.path = front ++ (step.toList ++ back))

/-- A site whose failure shows when its encoder is alone is the culprit itself. -/
theorem blames_self {site : Site} {x y : Encoding Unit} {failure : CodecFailure}
    (hx : Repeats x (site.run arena.encode)) (hy : Repeats y (arena.alone site))
    (hfails : Fails x failure) (hown : failure.path = [] ∧ Fails y failure) :
    arena.Blames site failure := by
  obtain ⟨path, cause⟩ := failure
  obtain ⟨rfl : path = [], halone⟩ := hown
  exact .culprit (.here site) ⟨does_of_fails hx hfails, does_of_fails hy halone⟩

/-- What is to blame for a failure of a part is to blame for that of the whole. -/
theorem Blames.of_part {site next : Site} {step : Option PathStep} {path : List PathStep}
    {cause : CodecError} (link : arena.HandsOn site .part step next)
    (h : arena.Blames next ⟨path, cause⟩) :
    arena.Blames site ⟨step.toList ++ path, cause⟩ := by
  cases h with
  | culprit trail raises => exact .culprit (.through link trail) raises
  | @departure front back whole handed role step' trail link' departs fails hpath =>
    refine .departure (.through link trail) link' departs fails ?_
    obtain rfl : path = front ++ (step'.toList ++ back) := hpath
    exact (List.append_assoc _ _ _).symm

theorem own_of_attributes (encode : Encoder) {x : Encoding Unit} {failure : CodecFailure}
    (h : Attributes encode (fun _ _ _ => False) x x) (hfails : Fails x failure) :
    failure.path = [] ∧ Fails x failure := by
  obtain ⟨buffer, after, hrun⟩ := hfails
  obtain ⟨hpath, -⟩ | ⟨_, _, _, _, hlink, -⟩ := h.failed hrun
  · exact ⟨hpath, buffer, after, hrun⟩
  · exact hlink.elim

/-- A primitive hands nothing on, and a byte neither. -/
theorem blames_leaf {encode : Encoder} {site : Site} {failure : CodecFailure}
    (hleaf : ∀ id, site.callee ≠ .type id) (h : Fails (site.run encode) failure) :
    arena.Blames site failure := by
  obtain ⟨callee, value⟩ := site
  cases callee with
  | type id => exact absurd rfl (hleaf id)
  | primitive p =>
    exact blames_self (repeats_primitive p value) (repeats_primitive p value) h
      (own_of_attributes encode (composes_attributes.primitive p value) h)
  | byte =>
    exact blames_self (composes_repeats.encodeByte value) (composes_repeats.encodeByte value) h
      (own_of_attributes encode (composes_attributes.encodeByte value) h)

theorem repeats_run (arena : Arena) (levels : ℕ) (site : Site) :
    Repeats (site.run (arena.encodeWithin levels)) (site.run arena.encode) := by
  obtain ⟨callee, value⟩ := site
  cases callee with
  | type id => exact arena.repeats_encode levels id value
  | primitive p => exact repeats_primitive p value
  | byte => exact composes_repeats.encodeByte value

/-- What a type does alone does not depend on the levels below. -/
theorem repeats_alone {id : TypeId} {type : CompiledType}
    (hid : arena.get? id = some type) (levels : ℕ) (value : Json) :
    Repeats (encodeStep (muted (arena.encodeWithin levels)) type.layout value)
      (arena.alone ⟨.type id, value⟩) := by
  have halone : arena.alone ⟨.type id, value⟩ =
      encodeStep (muted arena.encode) type.layout value := by
    simp only [alone, hid]
  rw [halone]
  exact repeats_encodeStep Json.closed_all type.layout trivial (fun _ _ => trivial)
    fun part _ value _ => repeats_muted (arena.repeats_encode levels part value)

theorem blames_empty {id : TypeId} (hid : arena.get? id = none) {levels : ℕ} {value : Json}
    {failure : CodecFailure} (h : Fails (arena.encodeWithin (levels + 1) id value) failure) :
    arena.Blames ⟨.type id, value⟩ failure := by
  have halone : arena.alone ⟨.type id, value⟩ = failWith (.unresolved id.index) := by
    simp only [alone, hid]
  have hfails : Fails (failWith (.unresolved id.index)) failure :=
    encodeWithin_of_empty hid levels value ▸ h
  exact blames_self (arena.repeats_run (levels + 1) ⟨.type id, value⟩) (halone ▸ Repeats.fail _) h
    (own_of_attributes arena.encode (.fail _) hfails)

/-- A type is to blame itself, or what it has handed on, if that fails only for what is to blame. -/
theorem blames_type {id : TypeId} {type : CompiledType} (hid : arena.get? id = some type)
    (hs : ∀ s, type.layout = .struct s → s.Numbered) {levels : ℕ}
    (ih : ∀ next inner, Fails (Site.run (arena.encodeWithin levels) next) inner →
      arena.Blames next inner)
    {value : Json} {failure : CodecFailure}
    (h : Fails (arena.encodeWithin (levels + 1) id value) failure) :
    arena.Blames ⟨.type id, value⟩ failure := by
  have hrun := arena.repeats_run (levels + 1) ⟨.type id, value⟩
  obtain ⟨buffer, after, hfails⟩ := h
  have hstep := hfails
  rw [encodeWithin_succ hid] at hstep
  rcases (attributes_encodeStep hs value).failed hstep with
    ⟨hpath, halone⟩ | ⟨role, step, next, inner, hlink, hinner, rfl⟩
  · exact blames_self hrun (repeats_alone hid levels value) ⟨buffer, after, hfails⟩
      ⟨hpath, buffer, after, halone⟩
  · by_cases hrole : role = .part
    · subst hrole
      exact (ih next inner hinner).of_part (.type hid hlink)
    · have hdoes := does_of_fails (arena.repeats_run levels next) hinner
      exact .departure (.here _) (.type hid hlink) hrole hdoes rfl

/-- **The path of every failure leads to what is to blame.** -/
theorem blames_of_fails
    (hs : ∀ id type s, arena.get? id = some type → type.layout = .struct s → s.Numbered)
    {levels : ℕ} {site : Site} {failure : CodecFailure}
    (h : Fails (site.run (arena.encodeWithin levels)) failure) :
    arena.Blames site failure := by
  -- the induction is on the levels of types that may be entered
  induction levels generalizing site failure with
  | zero =>
    refine blames_leaf (fun id hid => ?_) h
    obtain ⟨callee, value⟩ := site
    obtain rfl : callee = .type id := hid
    obtain ⟨buffer, after, hrun⟩ := h
    cases hrun
  | succ levels ih =>
    obtain ⟨callee, value⟩ := site
    match callee with
    | .primitive _ | .byte => exact blames_leaf nofun h
    | .type id =>
      cases hid : arena.get? id with
      | none => exact blames_empty hid h
      | some type => exact blames_type hid (hs id type · hid) (fun _ _ => ih) h

end Arena

end Wireform
