import Wireform.Proofs.Codec.Rearrangement
import Wireform.Proofs.Layout.Decidable
import Wireform.Proofs.Schema.Codecs
import Wireform.Proofs.Schema.Reached

/-!
# Members in any order, and more of them

* `Reached.encode_rearranged`: **permuting the members of a value, and adding members that nothing
  mentions outside of discriminants, changes neither whether it is encoded nor its bytes**.
* `mark_decides`: inside of a discriminant a member that nothing mentions changes both.
-/

namespace Wireform.Schema

open Json (Rearranged)

/-- **Rearranging a value does not change its bytes.** -/
theorem Reached.encode_rearranged {definitions : List (String × Definition)} {options : Options}
    {schema : Schema} (h : Reached definitions options schema) {id : TypeId} {codec : TypeCodec}
    (hcodec : schema.codec? id = some codec) (htext : schema.session.arena.Textless id)
    {value value' : Json} (hvalue : Rearranged (schema.session.arena.Spare id value) value value')
    (bytes : List UInt8) :
    codec.encode value = .ok bytes ↔ codec.encode value' = .ok bytes := by
  obtain ⟨type, -, rfl⟩ := Reached.codec?_eq hcodec
  -- at the levels that the one value is given the other one is written too
  have hconcurs : ∀ levels, Concurs (schema.session.arena.encodeWithin levels id value)
      (schema.session.arena.encodeWithin levels id value') := fun levels =>
    Arena.concursWithin h.grounded levels id value value' htext hvalue
  rw [TypeCodec.encode_ok_iff, TypeCodec.encode_ok_iff]
  constructor
  · exact fun hemits => Arena.emits_encode fun buffer => (hconcurs _ buffer () _).1 (hemits buffer)
  · exact fun hemits => Arena.emits_encode fun buffer => (hconcurs _ buffer () _).2 (hemits buffer)

/-- Circles, and shapes that are circles. -/
def shapes : List (String × Definition) :=
  [("Circle", .struct (.object [.typed (some "r") (.named "u8")])),
    ("Shape", .enum ⟨.object, none, none, [⟨.ofUInt64 0, "Circle"⟩], []⟩)]

/-- Their schema. -/
def shapesSchema : Schema := (compile shapes {}).toOption.get (by decide +kernel)

theorem reached_shapes : Reached shapes {} shapesSchema := .compile (eq_ok_get _)

/-- A circle. -/
def circle : Json := .object [("type", .string "Circle"), ("r", .ofUInt64 3)]

/-- The same circle with a note. -/
def notedCircle : Json := .object [("note", .null), ("r", .ofUInt64 3), ("type", .string "Circle")]

/-- Circles have a radius. -/
def circleLayout : Layout := .struct ⟨.object, 0, [⟨.key "r", .value ⟨0⟩ none⟩]⟩

/-- Shapes are told apart by their type. -/
def shapeLayout : EnumLayout :=
  ⟨.object, ⟨0⟩, "type", [⟨"Circle", .ofUInt64 0, .string "Circle", ⟨29⟩, false, false⟩]⟩

theorem shapes_encode_rearranged : ∃ schema codec, Reached shapes {} schema ∧
    schema.codec? ⟨30⟩ = some codec ∧ schema.session.arena.Textless ⟨30⟩ ∧
    Rearranged (schema.session.arena.Spare ⟨30⟩ circle) circle notedCircle ∧
    codec.encode circle = .ok [0, 3] ∧ codec.encode notedCircle = .ok [0, 3] := by
  have hruns : ((shapesSchema.codec? ⟨30⟩).any fun codec =>
      (shapesSchema.session.arena.get? ⟨29⟩).any
        fun struct => decide (codec.type.layout = .enum shapeLayout ∧
        struct.layout = circleLayout ∧
        (∀ part ∈ [⟨30⟩, ⟨29⟩, ⟨0⟩], ∀ type ∈ shapesSchema.session.arena.get? part,
          type.layout ≠ .primitive .json ∧
          ∀ other ∈ type.layout.references, other ∈ [⟨30⟩, ⟨29⟩, ⟨0⟩]) ∧
        codec.encode circle = .ok [0, 3])) = true := by
    decide +kernel
  obtain ⟨codec, hcodec, hruns⟩ := (Option.any_eq_true _ _).1 hruns
  obtain ⟨struct, hstruct, hruns⟩ := (Option.any_eq_true _ _).1 hruns
  obtain ⟨hshape, hcircle, hclosed, hencode⟩ := of_decide_eq_true hruns
  obtain ⟨type, hid, rfl⟩ := Reached.codec?_eq hcodec
  have htext : shapesSchema.session.arena.Textless ⟨30⟩ :=
    Arena.textless_of_closed List.mem_cons_self hclosed
  have hspare : shapesSchema.session.arena.Spare ⟨30⟩ circle [] "note" := by
    refine ⟨fun part found hread hfound hname => ?_, fun front hread hfront => ?_⟩
    · -- the object is read by the enum and by the circle
      rcases Arena.readsAs_enum hid hshape rfl hread
        with ⟨-, hpart⟩ | ⟨hplace, -⟩ | ⟨variant, hselected, hread⟩
      · obtain rfl := Reader.type.inj hpart
        rw [← Option.some.inj (hid.symm.trans hfound), hshape] at hname
        exact absurd hname.2 (by decide)
      · cases hplace
      · obtain rfl := Option.some.inj hselected
        obtain rfl := Reader.type.inj (Arena.readsAs_struct_self hstruct hcircle hread)
        rw [← Option.some.inj (hstruct.symm.trans hfound), hcircle] at hname
        obtain ⟨field, hfield, hplace⟩ := hname
        obtain rfl := List.mem_singleton.1 hfield
        exact absurd (FieldPlace.key.inj hplace) (by decide)
    · exact hread.ne_nil rfl (List.prefix_nil.1 hfront)
  have hvalue : Rearranged (shapesSchema.session.arena.Spare ⟨30⟩ circle) circle notedCircle := by
    refine @Rearranged.of_perm _ _ _ [("note", .null)] (fun name value hmember => ?_) (by decide)
      (fun name hname => ?_) (by decide)
    · simp only [List.mem_cons, List.not_mem_nil, or_false, Prod.mk.injEq] at hmember
      rcases hmember with ⟨rfl, rfl⟩ | ⟨rfl, rfl⟩
      · exact .string "Circle"
      · exact .number _
    · obtain rfl := List.mem_singleton.1 hname
      exact hspare
  exact ⟨shapesSchema, _, reached_shapes, hcodec, htext, hvalue, hencode,
    (reached_shapes.encode_rearranged hcodec htext hvalue _).1 hencode⟩

/-- Names that nothing mentions at a place that is read through a struct and is no discriminant
itself, even if it lies inside of one. -/
def NearlySpare (arena : Arena) (id : TypeId) (value : Json) : Json.Additions := fun place name =>
  (∃ part type s, arena.ReadsAs id value place (.type part) ∧ arena.get? part = some type ∧
    type.layout = .struct s ∧ s.shape ≠ .tuple) ∧
  (∀ part type, arena.ReadsAs id value place (.type part) → arena.get? part = some type →
    ¬type.layout.Mentions name) ∧
  ¬arena.ReadsAs id value place .comparison

/-- The discriminant of a variant is an object, which a field of the variant reads too. -/
def marks : List (String × Definition) :=
  [("Nothing", .struct .empty), ("Mark", .struct (.object [.typed (some "a") (.named "Nothing")])),
    ("Marked", .struct (.object [.literal (some "type") (.object [("a", .object [])]),
      .typed (some "type") (.named "Mark")])),
    ("Choice", .enum ⟨.object, none, none, [⟨.ofUInt64 0, "Marked"⟩], []⟩)]

/-- Their schema. -/
def marksSchema : Schema := (compile marks {}).toOption.get (by decide +kernel)

theorem reached_marks : Reached marks {} marksSchema := .compile (eq_ok_get _)

/-- A value with an object inside of its discriminant. -/
def marked (inside : List (String × Json)) : Json :=
  .object [("type", .object [("a", .object inside)])]

/-- Marks have an empty object. -/
def markLayout : Layout := .struct ⟨.object, 0, [⟨.key "a", .value ⟨29⟩ none⟩]⟩

/-- The mark stands twice, as a literal and as a value. -/
def markedLayout : Layout :=
  .struct ⟨.object, 0,
    [⟨.key "type", .literal (.object [("a", .object [])])⟩, ⟨.key "type", .value ⟨30⟩ none⟩]⟩

/-- The mark is the discriminant. -/
def choiceLayout : EnumLayout :=
  ⟨.object, ⟨0⟩, "type", [⟨"Marked", .ofUInt64 0, .object [("a", .object [])], ⟨31⟩, false, true⟩]⟩

/-- The object inside of the mark is read once, as an empty struct. -/
theorem readsAs_inside_marked {arena : Arena} {choice payload mark nothing : CompiledType}
    (hid : arena.get? ⟨32⟩ = some choice) (hchoice : choice.layout = .enum choiceLayout)
    (hpayload : arena.get? ⟨31⟩ = some payload) (hmarked : payload.layout = markedLayout)
    (hmark : arena.get? ⟨30⟩ = some mark) (hmark' : mark.layout = markLayout)
    (hnothing : arena.get? ⟨29⟩ = some nothing) (hempty : nothing.layout = .struct ⟨.empty, 0, []⟩)
    (reader : Reader) :
    arena.ReadsAs ⟨32⟩ (marked []) [.key "type", .key "a"] reader ↔ reader = .type ⟨29⟩ := by
  constructor
  · intro h
    rcases Arena.readsAs_enum hid hchoice rfl h
      with ⟨hplace, -⟩ | ⟨hplace, -⟩ | ⟨variant, hselected, h⟩
    · cases hplace
    · cases hplace
    · obtain rfl := Option.some.inj hselected
      obtain ⟨field, hfield, _, _, _, hcontent, hfound, h⟩ :=
        Arena.readsAs_struct_field hpayload hmarked h
      -- a literal is not read
      simp only [List.mem_cons, List.not_mem_nil, or_false] at hfield
      rcases hfield with rfl | rfl
      · cases hcontent
      · cases hcontent
        cases hfound
        obtain ⟨field, hfield, _, _, _, hcontent, hfound, h⟩ :=
          Arena.readsAs_struct_field hmark hmark' h
        obtain rfl := List.mem_singleton.1 hfield
        cases hcontent
        cases hfound
        exact Arena.readsAs_struct_self hnothing hempty h
  · rintro rfl
    exact .payload hid hchoice rfl rfl
      (.field hpayload hmarked (List.mem_cons_of_mem _ List.mem_cons_self) rfl rfl
      (.field hmark hmark' List.mem_cons_self rfl rfl (.self _ _)))

/-- **Inside of a discriminant a member that nothing mentions decides.** -/
theorem mark_decides : ∃ schema codec, Reached marks {} schema ∧ schema.codec? ⟨32⟩ = some codec ∧
    schema.session.arena.Textless ⟨32⟩ ∧
    Rearranged (NearlySpare schema.session.arena ⟨32⟩ (marked [])) (marked [])
      (marked [("z", .null)]) ∧
    codec.encode (marked []) = .ok [0] ∧
    codec.encode (marked [("z", .null)]) =
      .error (.failure ⟨[], .unknownVariant (.object [("a", .object [("z", .null)])])⟩) := by
  have hruns : ((marksSchema.codec? ⟨32⟩).any fun codec =>
      (marksSchema.session.arena.get? ⟨31⟩).any
        fun payload => (marksSchema.session.arena.get? ⟨30⟩).any fun mark =>
        (marksSchema.session.arena.get? ⟨29⟩).any
          fun nothing => decide (codec.type.layout = .enum choiceLayout ∧
          payload.layout = markedLayout ∧ mark.layout = markLayout ∧
          nothing.layout = .struct ⟨.empty, 0, []⟩ ∧
          (∀ part ∈ [⟨32⟩, ⟨31⟩, ⟨30⟩, ⟨29⟩, ⟨0⟩], ∀ type ∈ marksSchema.session.arena.get? part,
            type.layout ≠ .primitive .json ∧
              ∀ other ∈ type.layout.references, other ∈ [⟨32⟩, ⟨31⟩, ⟨30⟩, ⟨29⟩, ⟨0⟩]) ∧
          codec.encode (marked []) = .ok [0] ∧ codec.encode (marked [("z", .null)]) =
            .error (.failure ⟨[], .unknownVariant (.object [("a", .object [("z", .null)])])⟩))) =
              true := by
    decide +kernel
  obtain ⟨codec, hcodec, hruns⟩ := (Option.any_eq_true _ _).1 hruns
  obtain ⟨payload, hpayload, hruns⟩ := (Option.any_eq_true _ _).1 hruns
  obtain ⟨mark, hmark, hruns⟩ := (Option.any_eq_true _ _).1 hruns
  obtain ⟨nothing, hnothing, hruns⟩ := (Option.any_eq_true _ _).1 hruns
  obtain ⟨hchoice, hmarked, hmark', hempty, hclosed, hencode, hrefused⟩ := of_decide_eq_true hruns
  obtain ⟨type, hid, rfl⟩ := Reached.codec?_eq hcodec
  have htext : marksSchema.session.arena.Textless ⟨32⟩ :=
    Arena.textless_of_closed List.mem_cons_self hclosed
  have hreads := readsAs_inside_marked hid hchoice hpayload hmarked hmark hmark' hnothing hempty
  have hspare : NearlySpare marksSchema.session.arena ⟨32⟩ (marked [])
      [.key "type", .key "a"] "z" := by
    refine ⟨⟨⟨29⟩, nothing, _, (hreads _).2 rfl, hnothing, hempty, by decide⟩,
      fun part found h hfound hname => ?_, fun h => ?_⟩
    · obtain rfl := Reader.type.inj ((hreads _).1 h)
      rw [← Option.some.inj (hnothing.symm.trans hfound), hempty] at hname
      obtain ⟨field, hfield, -⟩ := hname
      cases hfield
    · cases (hreads _).1 h
  have hvalue : Rearranged (NearlySpare marksSchema.session.arena ⟨32⟩ (marked [])) (marked [])
      (marked [("z", .null)]) := by
    refine .member
      (.member (@Rearranged.of_perm _ [] _ [("z", .null)] (fun _ _ hnone => nomatch hnone) (.refl _)
      (fun name hname => ?_) (by decide)))
    obtain rfl := List.mem_singleton.1 hname
    exact hspare
  exact ⟨marksSchema, _, reached_marks, hcodec, htext, hvalue, hencode, hrefused⟩

end Wireform.Schema
