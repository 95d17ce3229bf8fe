import Wireform.Proofs.Codec.Forms
import Wireform.Proofs.Codec.Selection
import Wireform.Proofs.Layout.Decidable
import Wireform.Proofs.Schema.Dispatch

/-!
# Tags and discriminants

An enum is written by the discriminants of its variants and read by their tags. What is written
comes back through the same variant if the tags can be told apart, and what is read is written back
through it if the values can. Nothing else makes sure of that: two variants may have one tag, and a
payload may say that it is another one.

* `Reached.embeds`: a discriminant that stands in front of a payload is the one of its variant.
* `Reached.selection_agrees`: **tags and discriminants select the same variant.**
* `sameTag_misread`, `ownMember_rewritten`: variants that cannot be told apart.
-/

namespace Wireform

namespace Schema

open Session

variable {definitions : List (String × Definition)} {options : Options} {schema : Schema}

namespace Reached

/-- Payloads of which it is said that they give their discriminant in front of their items do so. -/
theorem embeds (h : Reached definitions options schema) {id : TypeId} {type : CompiledType}
    {e : EnumLayout} (hid : schema.session.arena.get? id = some type) (hl : type.layout = .enum e) :
    schema.session.arena.Embeds e := by
  intro hshape variant hvariant hembedded
  obtain ⟨r, rfl, hsteps⟩ := h.arises.traced id type e hid hl
  obtain ⟨body, hbody, hdeclared⟩ :=
    r.declares (Steps.precedes hsteps) hid hl hvariant (Or.inl hembedded)
  rw [hshape] at hdeclared
  exact ⟨body, hbody, h.complete.toValid.numbered hbody, hdeclared⟩

/-- **Tags and discriminants select the same variant** of an enum: if tags can be told apart, what
is written through a variant is read through it, whatever follows; if values can be told apart, what
is read through a variant is written through it, if it can be written. -/
theorem selection_agrees (h : Reached definitions options schema) {id : TypeId} {codec : TypeCodec}
    (hcodec : schema.codec? id = some codec) {e : EnumLayout} (hl : codec.type.layout = .enum e) :
    (codec.arena.DiscernsTags e → ∀ value bytes, codec.encode value = .ok bytes →
      ∃ k, e.writes? value = some k ∧ ∀ rest, e.reads? codec.arena (bytes ++ rest) = some k) ∧
    (codec.arena.DiscernsValues e → ∀ bytes value used out,
      codec.decodePrefix bytes = .ok (value, used) → codec.encode value = .ok out →
        ∃ k, e.reads? codec.arena bytes = some k ∧ e.writes? value = some k) := by
  obtain ⟨type, hid, rfl⟩ := codec?_eq hcodec
  have hruns : ∀ value bytes, TypeCodec.encode ⟨schema.session.arena, id, type⟩ value = .ok bytes →
      ∃ after, schema.session.arena.encode id value #[] = .ok () after ∧ after.toList = bytes := by
    intro value bytes hencode
    unfold TypeCodec.encode at hencode
    split at hencode
    · next after hrun => exact ⟨after, hrun, Except.ok.inj hencode⟩
    · cases hencode
  refine ⟨fun htags value bytes hencode => ?_,
    fun hvalues bytes value used out hdecode hencode => ?_⟩
  · obtain ⟨after, hrun, rfl⟩ := hruns value bytes hencode
    exact htags.reads?_of_writes hid hl hrun
  · obtain ⟨after, hrun, -⟩ := hruns value out hencode
    unfold TypeCodec.decodePrefix at hdecode
    split at hdecode
    · next found cursor hread =>
      obtain ⟨rfl, -⟩ := Prod.mk.inj (Except.ok.inj hdecode)
      exact hvalues.writes?_of_reads h.grounded (h.embeds hid hl) hid hl hread hrun
    · cases hdecode

end Reached

/-- An enum of two structs, of which the first one names itself. The tag of the second one is
given. -/
def twoSides (tag : UInt64) : List (String × Definition) :=
  [("A", .struct (.object [.literal (some "type") (.string "x"), .typed (some "n") (.named "u8")])),
    ("B", .struct (.object [.typed (some "n") (.named "u8")])),
    ("E", .enum ⟨.object, none, none, [⟨.ofUInt64 0, "A"⟩, ⟨.ofUInt64 tag, "B"⟩], []⟩)]

/-- The schema in which both structs have one tag. -/
def sameTagSchema : Schema := (compile (twoSides 0) {}).toOption.get (by decide +kernel)

/-- The layout of the enum. -/
def twoSidesLayout (tag : UInt64) : EnumLayout :=
  ⟨.object, ⟨0⟩, "type", [⟨"A", .ofUInt64 0, .string "x", ⟨29⟩, false, true⟩,
    ⟨"B", .ofUInt64 tag, .string "B", ⟨30⟩, false, false⟩]⟩

/-- A value of the second struct. -/
def secondSide : Json := .object [("type", .string "B"), ("n", .ofUInt64 7)]

/-- **Two variants with one tag:** what is written through the second variant is read
through the first one. -/
theorem sameTag_misread : ∃ schema codec, Reached (twoSides 0) {} schema ∧
    schema.codec? ⟨31⟩ = some codec ∧ codec.type.layout = .enum (twoSidesLayout 0) ∧
    codec.encode secondSide = .ok [0, 7] ∧ (twoSidesLayout 0).writes? secondSide = some 1 ∧
    (twoSidesLayout 0).reads? codec.arena [0, 7] = some 0 ∧
    codec.decode [0, 7] = .ok (.object [("type", .string "x"), ("n", .ofUInt64 7)]) := by
  have hruns : ((sameTagSchema.codec? ⟨31⟩).any fun codec =>
      decide (codec.type.layout = .enum (twoSidesLayout 0) ∧
        (codec.encode secondSide).toOption = some [0, 7] ∧
        (twoSidesLayout 0).reads? codec.arena [0, 7] = some 0 ∧
        (codec.decode [0, 7]).toOption =
          some (.object [("type", .string "x"), ("n", .ofUInt64 7)]))) = true := by
    decide +kernel
  obtain ⟨codec, hcodec, hruns⟩ := (Option.any_eq_true _ _).1 hruns
  obtain ⟨hl, hencode, hreads, hdecode⟩ := of_decide_eq_true hruns
  exact ⟨sameTagSchema, codec, .compile (eq_ok_get _), hcodec, hl, ok_of_toOption hencode,
    by decide +kernel, hreads, ok_of_toOption hdecode⟩

/-- A struct whose member says which of two structs it is; the second one says that it is itself. -/
def ownMember : List (String × Definition) :=
  [("A", .struct (.object [.typed (some "type") (.named "bool")])),
    ("B", .struct (.object [.literal (some "type") (.bool true)])),
    ("E", .enum ⟨.object, none, none, [⟨.ofUInt64 0, "A"⟩, ⟨.ofUInt64 1, "B"⟩], []⟩)]

/-- Their schema. -/
def ownMemberSchema : Schema := (compile ownMember {}).toOption.get (by decide +kernel)

/-- The layout of the enum. -/
def ownMemberLayout : EnumLayout :=
  ⟨.object, ⟨0⟩, "type", [⟨"A", .ofUInt64 0, .string "A", ⟨29⟩, false, false⟩,
    ⟨"B", .ofUInt64 1, .bool true, ⟨30⟩, false, true⟩]⟩

/-- **A payload with a member of its own in the place of the discriminant:** what is read through
the first variant is written through the second one, if the member says so. -/
theorem ownMember_rewritten :
    ∃ schema codec, Reached ownMember {} schema ∧ schema.codec? ⟨31⟩ = some codec ∧
    codec.type.layout = .enum ownMemberLayout ∧ ownMemberLayout.reads? codec.arena [0, 1] = some 0 ∧
    codec.decode [0, 1] = .ok (.object [("type", .bool true)]) ∧
    ownMemberLayout.writes? (.object [("type", .bool true)]) = some 1 ∧
    codec.encode (.object [("type", .bool true)]) = .ok [1] := by
  have hruns : ((ownMemberSchema.codec? ⟨31⟩).any fun codec =>
      decide (codec.type.layout = .enum ownMemberLayout ∧
        ownMemberLayout.reads? codec.arena [0, 1] = some 0 ∧
        (codec.decode [0, 1]).toOption = some (.object [("type", .bool true)]) ∧
        (codec.encode (.object [("type", .bool true)])).toOption = some [1])) = true := by
    decide +kernel
  obtain ⟨codec, hcodec, hruns⟩ := (Option.any_eq_true _ _).1 hruns
  obtain ⟨hl, hreads, hdecode, hencode⟩ := of_decide_eq_true hruns
  exact ⟨ownMemberSchema, codec, .compile (eq_ok_get _), hcodec, hl, hreads, ok_of_toOption hdecode,
    by decide +kernel, ok_of_toOption hencode⟩

/-- With another tag the variants can be told apart by their tags. -/
theorem twoSides_discernsTags {schema : Schema} (h : Reached (twoSides 1) {} schema)
    (hbyte : (schema.session.arena.get? ⟨0⟩).map (·.layout) = some (.primitive (.uint .w8 .big))) :
    schema.session.arena.DiscernsTags (twoSidesLayout 1) := by
  refine Arena.discernsTags_of_canonical h.grounded (fun variant hvariant => ?_) (by decide)
  obtain ⟨type, hid, hl⟩ := Option.map_eq_some_iff.1 hbyte
  have hword : ∃ word : UInt64, variant.tag = .ofUInt64 word ∧ word.toNat < 256 := by
    simp only [twoSidesLayout, List.mem_cons, List.not_mem_nil, or_false] at hvariant
    rcases hvariant with rfl | rfl
    · exact ⟨0, rfl, by decide⟩
    · exact ⟨1, rfl, by decide⟩
  obtain ⟨word, htag, hword⟩ := hword
  have hslot : (twoSidesLayout 1).tag = ⟨0⟩ := rfl
  rw [htag, hslot, Arena.Canonical, Arena.hasForm_iff hid, hl]
  exact ⟨⟨word.toNat, _, rfl, Int.natCast_nonneg _, Int.ofNat_lt.2 hword⟩, rfl⟩

/-- The first struct names itself, the second one has no such member. -/
theorem twoSides_discernsValues {schema : Schema}
    (hfirst : structBehind? schema.session.arena ⟨29⟩ =
      some ⟨.object, 0, [⟨.key "type", .literal (.string "x")⟩, ⟨.key "n", .value ⟨0⟩ none⟩]⟩)
    (hsecond : structBehind? schema.session.arena ⟨30⟩ =
      some ⟨.object, 0, [⟨.key "n", .value ⟨0⟩ none⟩]⟩) :
    schema.session.arena.DiscernsValues (twoSidesLayout 1) := by
  refine Arena.discernsValues_of_literals (by decide) fun _ k variant hk => ?_
  rcases k with _ | _ | k
  · obtain rfl := Option.some.inj hk
    refine ⟨_, hfirst, fun field hfield hplace => ?_⟩
    simp only [List.mem_cons, List.not_mem_nil, or_false] at hfield
    rcases hfield with rfl | rfl
    · exact ⟨.string "x", rfl, by decide⟩
    · exact absurd hplace (by decide)
  · obtain rfl := Option.some.inj hk
    refine ⟨_, hsecond, fun field hfield hplace => ?_⟩
    obtain rfl := List.mem_singleton.1 hfield
    exact absurd hplace (by decide)
  · cases hk

namespace Reached

theorem twoSides_selection_agrees : ∃ schema codec, Reached (twoSides 1) {} schema ∧
    schema.codec? ⟨31⟩ = some codec ∧ codec.type.layout = .enum (twoSidesLayout 1) ∧
    codec.arena.DiscernsTags (twoSidesLayout 1) ∧ codec.arena.DiscernsValues (twoSidesLayout 1) ∧
    codec.encode secondSide = .ok [1, 7] ∧
    (twoSidesLayout 1).writes? secondSide = some 1 ∧
    (∀ rest, (twoSidesLayout 1).reads? codec.arena ([1, 7] ++ rest) = some 1) ∧
    ∀ bytes value used out, codec.decodePrefix bytes = .ok (value, used) →
      codec.encode value = .ok out → ∃ k, (twoSidesLayout 1).reads? codec.arena bytes = some k ∧
        (twoSidesLayout 1).writes? value = some k := by
  have hruns : (Schema.compile (twoSides 1) {}).toOption.any
      (fun schema => (schema.codec? ⟨31⟩).any fun codec =>
      decide (codec.type.layout = .enum (twoSidesLayout 1) ∧
        (codec.encode secondSide).toOption = some [1, 7] ∧
        (schema.session.arena.get? ⟨0⟩).map (·.layout) = some (.primitive (.uint .w8 .big)) ∧
        structBehind? schema.session.arena ⟨29⟩ =
          some ⟨.object, 0, [⟨.key "type", .literal (.string "x")⟩, ⟨.key "n", .value ⟨0⟩ none⟩]⟩ ∧
        structBehind? schema.session.arena ⟨30⟩ =
          some ⟨.object, 0, [⟨.key "n", .value ⟨0⟩ none⟩]⟩)) = true := by
    decide +kernel
  obtain ⟨schema, hschema, hruns⟩ := (Option.any_eq_true _ _).1 hruns
  obtain ⟨codec, hcodec, hruns⟩ := (Option.any_eq_true _ _).1 hruns
  obtain ⟨hl, hencode, hbyte, hfirst, hsecond⟩ := of_decide_eq_true hruns
  have h : Reached (twoSides 1) {} schema := .compile (ok_of_toOption hschema)
  have hdiscerns : codec.arena.DiscernsTags (twoSidesLayout 1) ∧
      codec.arena.DiscernsValues (twoSidesLayout 1) := by
    obtain ⟨type, -, rfl⟩ := codec?_eq hcodec
    exact ⟨twoSides_discernsTags h hbyte, twoSides_discernsValues hfirst hsecond⟩
  obtain ⟨htags, hvalues⟩ := hdiscerns
  obtain ⟨hwritten, hread⟩ := h.selection_agrees hcodec hl
  obtain ⟨k, hk, hall⟩ := hwritten htags secondSide [1, 7] (ok_of_toOption hencode)
  have hsecond : (twoSidesLayout 1).writes? secondSide = some 1 := by decide +kernel
  obtain rfl := Option.some.inj (hsecond.symm.trans hk)
  exact ⟨schema, codec, h, hcodec, hl, htags, hvalues, ok_of_toOption hencode, hsecond, hall,
    hread hvalues⟩

end Reached

end Schema

end Wireform
