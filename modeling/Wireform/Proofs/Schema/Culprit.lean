import Wireform.Proofs.Codec.Culprit
import Wireform.Proofs.Layout.Decidable
import Wireform.Proofs.Schema.Reached

/-!
# The path of a failure leads to the culprit

* `CodecFailure.pathText_eq`: how a path is written.
* `Reached.encode_blames`: **a failure of `encode` is raised at the end of its path**, read
  as a path into the value, unless a tuple is handed on without its discriminant on the way,
  or a tag is not encoded.
* `pair_misplaced`: without its discriminant the positions of a tuple are one too small.
-/

namespace Wireform

/-- A path is written with a slash in front, and slashes between its steps. -/
theorem CodecFailure.pathText_eq {failure : CodecFailure} (h : failure.path ≠ []) :
    failure.pathText = "/" ++ "/".intercalate (failure.path.map PathStep.text) := by
  have hpath : ∀ (path : List PathStep) (step : PathStep),
      (step :: path).foldr (fun step rest => "/" ++ step.text ++ rest) "" =
        "/" ++ "/".intercalate ((step :: path).map PathStep.text) := by
    intro path
    induction path with
    | nil => simp
    | cons next rest ih =>
      intro step
      rw [List.foldr_cons, ih next]
      simp only [List.map_cons, String.intercalate_cons_cons, String.append_assoc]
  unfold pathText
  cases hsteps : failure.path with
  | nil => exact absurd hsteps h
  | cons step rest => exact hpath rest step

namespace Schema

open Codec

namespace Reached

variable {definitions : List (String × Definition)} {options : Options} {schema : Schema}

theorem numbered (h : Reached definitions options schema) {id : TypeId} {type : CompiledType}
    {s : StructLayout} (hid : schema.session.arena.get? id = some type)
    (hl : type.layout = .struct s) : s.Numbered :=
  (h.complete.types id type hid).builds.numbered s hl

/-- **The path of a failure leads to the culprit.** Whenever encoding a value fails, the steps of
the path lead from the value to a culprit, over members, items, constants of structs and variants of
which the value itself is the payload, and the failure has been raised by the culprit's own encoder.
So the culprit stands at the path in the value, or is the value itself if there is no path. The
exception is a path that leads to an enum which hands on what is no part of its value, and that
fails with the rest of the path: the tag of a variant, or the items behind the discriminant of a
tuple, in which positions are counted anew. -/
theorem encode_blames (h : Reached definitions options schema) {id : TypeId} {codec : TypeCodec}
    (hcodec : schema.codec? id = some codec) {value : Json} {failure : CodecFailure}
    (hfails : codec.encode value = .error (.failure failure)) :
    (failure.path ≠ [] → failure.pathText =
      "/" ++ "/".intercalate (failure.path.map PathStep.text)) ∧
    ((∃ culprit, schema.session.arena.Trail ⟨.type id, value⟩ failure.path culprit ∧
        schema.session.arena.Raises culprit failure.cause ∧
        (.constant ∉ failure.path → value.at? failure.path = some culprit.value)) ∨
      ∃ front whole role step handed back,
        schema.session.arena.Trail ⟨.type id, value⟩ front whole ∧
        schema.session.arena.HandsOn whole role step handed ∧ role ≠ .part ∧
        Does (handed.run schema.session.arena.encode) (.error ⟨back, failure.cause⟩) ∧
        failure.path = front ++ (step.toList ++ back)) := by
  refine ⟨CodecFailure.pathText_eq, ?_⟩
  obtain ⟨type, -, rfl⟩ := codec?_eq hcodec
  have hrun :
      Fails (Site.run (schema.session.arena.encodeWithin (schema.session.arena.encodeLevels value))
      ⟨.type id, value⟩) failure := by
    unfold TypeCodec.encode TypeCodec.encodeInto at hfails
    split at hfails
    · cases hfails
    · next stop after hrun =>
      obtain rfl := Except.error.inj hfails
      exact ⟨#[], after, hrun⟩
  cases Arena.blames_of_fails (fun _ _ _ => h.numbered) hrun with
  | culprit trail raises => exact .inl ⟨_, trail, raises, trail.at?⟩
  | departure trail link departs fails path =>
    exact .inr ⟨_, _, _, _, _, _, trail, link, departs, fails, path⟩

end Reached

/-- A list of users. -/
def users : List (String × Definition) :=
  [("User", .struct (.object [.typed (some "id") (.named "u8")])),
    ("Users",
      .struct (.object [.typed (some "list") (.generic "Array" [[.type (.named "User")]])]))]

/-- Their schema. -/
def usersSchema : Schema := (compile users {}).toOption.get (by decide +kernel)

theorem reached_users : Reached users {} usersSchema := .compile (eq_ok_get _)

/-- Two users, of which the second one has a number that is too large. -/
def twoUsers : Json :=
  .object [("list", .array [.object [("id", .ofUInt64 1)], .object [("id", .ofUInt64 300)]])]

theorem twoUsers_encode_blames : ∃ schema codec failure culprit, Reached users {} schema ∧
    schema.codec? ⟨30⟩ = some codec ∧ codec.encode twoUsers = .error (.failure failure) ∧
    failure.pathText = "/list/1/id" ∧ schema.session.arena.Raises culprit failure.cause ∧
    culprit.value = .ofUInt64 300 := by
  have hruns : ((usersSchema.codec? ⟨30⟩).any fun codec =>
      decide (codec.encode twoUsers = .error (.failure
          ⟨[.key "list", .index 1, .key "id"], .outOfRange (.ofUInt64 300) "u8"⟩) ∧
        ∀ slot ∈ usersSchema.session.arena.slots.toList, ∀ type ∈ slot, type.layout.isEnum =
          false)) = true := by
    decide +kernel
  obtain ⟨codec, hcodec, hruns⟩ := (Option.any_eq_true _ _).1 hruns
  obtain ⟨hencode, hnone⟩ := of_decide_eq_true hruns
  obtain ⟨-, ⟨culprit, -, hraises, hplace⟩ | ⟨_, _, _, _, _, _, -, hlink, hrole, -⟩⟩ :=
    reached_users.encode_blames hcodec hencode
  · have hvalue := Option.some.inj (hplace (by decide))
    exact ⟨usersSchema, codec, _, culprit, reached_users, hcodec, hencode, by decide +kernel,
      hraises, hvalue.symm⟩
  · -- no type of the schema is an enum
    obtain ⟨hid, hlink⟩ := hlink
    have hslot := Array.mem_of_getElem? (Option.join_eq_some_iff.1 hid)
    have hnot := hnone _ (Array.mem_toList_iff.2 hslot) _ rfl
    exact absurd (hlink.isEnum hrole) (Bool.eq_false_iff.1 hnot)

/-- Pairs of bytes, each with its name in front. -/
def pairs : List (String × Definition) :=
  [("Pair", .struct (.tuple [.typed none (.named "u8"), .typed none (.named "u8")])),
    ("Either", .enum ⟨.tuple, none, none, [⟨.ofUInt64 0, "Pair"⟩], []⟩)]

/-- Their schema. -/
def pairsSchema : Schema := (compile pairs {}).toOption.get (by decide +kernel)

/-- The layout of the enum. -/
def eitherLayout : EnumLayout :=
  ⟨.tuple, ⟨0⟩, "type", [⟨"Pair", .ofUInt64 0, .string "Pair", ⟨29⟩, false, false⟩]⟩

/-- A pair of which the second number, the third item, is too large. -/
def largePair : Json := .array [.string "Pair", .ofUInt64 1, .ofUInt64 300]

/-- **A tuple without its discriminant has other positions:** the path leads to the first number,
which is encoded, and not to the second one, which has raised the cause. -/
theorem pair_misplaced : ∃ schema codec byte failure, Reached pairs {} schema ∧
    schema.codec? ⟨30⟩ = some codec ∧ schema.codec? ⟨0⟩ = some byte ∧
    codec.encode largePair = .error (.failure failure) ∧
    failure.pathText = "/Pair/1" ∧ failure.cause = .outOfRange (.ofUInt64 300) "u8" ∧
    largePair.at? failure.path = some (.ofUInt64 1) ∧ byte.encode (.ofUInt64 1) = .ok [1] ∧
    largePair.item? 2 = some (.ofUInt64 300) ∧
    byte.encode (.ofUInt64 300) = .error (.failure ⟨[], failure.cause⟩) ∧
    ¬∃ culprit, schema.session.arena.Trail ⟨.type ⟨30⟩, largePair⟩ failure.path culprit := by
  have hruns : ((pairsSchema.codec? ⟨30⟩).any fun codec =>
      (pairsSchema.codec? ⟨0⟩).any fun byte => decide (codec.type.layout = .enum eitherLayout ∧
        codec.encode largePair = .error (.failure
          ⟨[.variant "Pair", .index 1], .outOfRange (.ofUInt64 300) "u8"⟩) ∧
        byte.encode (.ofUInt64 1) = .ok [1] ∧
        byte.encode (.ofUInt64 300) = .error (.failure ⟨[], .outOfRange (.ofUInt64 300) "u8"⟩))) =
          true := by
    decide +kernel
  obtain ⟨codec, hcodec, hruns⟩ := (Option.any_eq_true _ _).1 hruns
  obtain ⟨byte, hbyte, hruns⟩ := (Option.any_eq_true _ _).1 hruns
  obtain ⟨hl, hencode, hone, hlarge⟩ := of_decide_eq_true hruns
  refine ⟨pairsSchema, codec, byte, _, .compile (eq_ok_get _), hcodec, hbyte, hencode,
    by decide +kernel, rfl, by decide +kernel, hone, by decide +kernel, hlarge, ?_⟩
  rintro ⟨culprit, htrail⟩
  refine List.cons_ne_nil _ _ (htrail.path_eq_nil fun step next hlink => ?_)
  obtain ⟨type, hid, rfl⟩ := Reached.codec?_eq hcodec
  obtain ⟨hid', hlink⟩ := hlink
  obtain rfl := Option.some.inj (hid.symm.trans hid')
  have hl : type.layout = .enum eitherLayout := hl
  rw [hl] at hlink
  -- the payload is no part: the shape is that of tuples, and the variant does not
  -- hold its discriminant
  have hwhole : ∀ variant ∈ selected? eitherLayout largePair, variant.embeddedTag = false :=
    by decide +kernel
  cases hlink with
  | payload selected whole =>
    rcases whole with hshape | hembedded
    · cases hshape
    · rw [hwhole _ selected] at hembedded
      cases hembedded

end Schema

end Wireform
