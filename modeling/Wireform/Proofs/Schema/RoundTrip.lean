import Wireform.Proofs.Codec.Forms
import Wireform.Proofs.Codec.RoundTrip
import Wireform.Proofs.Schema.Reached

/-!
# Canonical values come back

In a schema that has been reached, a canonical value of a type is encoded, and the bytes
are decoded as the same value, whatever bytes follow.

* `Reached.decodePrefix_encode`: the round trip.
-/

namespace Wireform.Schema

/-- The layout of a link of the chain. -/
def linkLayout : StructLayout :=
  ⟨.object, 1, [⟨.key "value", .value ⟨0⟩ none⟩, ⟨.key "next", .value ⟨29⟩ (some 0)⟩]⟩

/-- An arena with the slots of the chain. -/
structure HasChain (arena : Arena) : Prop where
  byte : (arena.get? ⟨0⟩).map (·.layout) = some (.primitive (.uint .w8 .big))
  link : (arena.get? ⟨29⟩).map (·.layout) = some (.struct linkLayout)

/-- A link holds a byte, and another link or nothing. -/
theorem canonical_link {arena : Arena} (h : HasChain arena) {word : UInt64}
    (hword : word.toNat < 256) {next : Json}
    (hnext : next = .null ∨ next.isNull = false ∧ arena.Canonical ⟨29⟩ next) :
    arena.Canonical ⟨29⟩ (.object [("value", .ofUInt64 word), ("next", next)]) := by
  obtain ⟨byte, hbyte, hprimitive⟩ := Option.map_eq_some_iff.1 h.byte
  obtain ⟨link, hlink, hstruct⟩ := Option.map_eq_some_iff.1 h.link
  have hvalue : arena.Canonical ⟨0⟩ (.ofUInt64 word) := by
    rw [Arena.Canonical, Arena.hasForm_iff hbyte, hprimitive]
    exact ⟨⟨word.toNat, _, rfl, Int.natCast_nonneg _, Int.ofNat_lt.2 hword⟩, rfl⟩
  have hkeys : Assoc.keys [("value", Json.ofUInt64 word), ("next", next)] = ["value", "next"] := rfl
  rw [Arena.Canonical, Arena.hasForm_iff hlink, hstruct]
  refine ⟨_, _, rfl, rfl, by rw [hkeys]; decide, .member ⟨_, rfl, hvalue⟩ (.member ?_ .nil)⟩
  have hfound : Assoc.get? [("value", Json.ofUInt64 word), ("next", next)] "next" = some next := rfl
  simp only [Codec.ContentForm, hfound, Codec.isPresent]
  rcases hnext with rfl | ⟨hnull, hnext⟩
  · rfl
  · rw [hnull]
    exact ⟨next, rfl, hnext⟩

namespace Reached

variable {definitions : List (String × Definition)} {options : Options} {schema : Schema}

/-- **A canonical value comes back**, and what follows its bytes is left. -/
theorem decodePrefix_encode (h : Reached definitions options schema) {id : TypeId}
    {codec : TypeCodec} (hcodec : schema.codec? id = some codec) {value : Json}
    (hvalue : schema.session.arena.Canonical id value) :
    ∃ bytes, codec.encode value = .ok bytes ∧
      ∀ rest, codec.decodePrefix (bytes ++ rest) = .ok (value, bytes.length) := by
  obtain ⟨type, -, rfl⟩ := codec?_eq hcodec
  obtain ⟨bytes, hemits, hyields⟩ := h.grounded.trips hvalue
  refine ⟨bytes, ?_, fun rest => ?_⟩
  · have hrun := hemits #[]
    rw [Array.empty_append] at hrun
    simp only [TypeCodec.encode, TypeCodec.encodeInto, hrun]
  · have hrun := hyields rest 0
    simp only [TypeCodec.decodePrefix, Cursor.ofBytes, hrun, Nat.zero_add]

theorem chain_decodePrefix : ∃ schema codec, Reached chain {} schema ∧
    schema.codec? ⟨29⟩ = some codec ∧ schema.session.arena.Canonical ⟨29⟩ twoLinks ∧
    ∃ bytes, codec.encode twoLinks = .ok bytes ∧
      ∀ rest, codec.decodePrefix (bytes ++ rest) = .ok (twoLinks, bytes.length) := by
  have hchain : HasChain chainSchema.session.arena := ⟨rfl, rfl⟩
  have hlast : chainSchema.session.arena.Canonical ⟨29⟩
      (.object [("value", .ofUInt64 8), ("next", .null)]) :=
    canonical_link hchain (by decide) (Or.inl rfl)
  have hvalue : chainSchema.session.arena.Canonical ⟨29⟩ twoLinks :=
    canonical_link hchain (by decide) (Or.inr ⟨rfl, hlast⟩)
  obtain ⟨type, hid, -⟩ := Option.map_eq_some_iff.1 hchain.link
  have hcodec : chainSchema.codec? ⟨29⟩ = some ⟨chainSchema.session.arena, ⟨29⟩, type⟩ := by
    rw [codec?, hid]
    rfl
  exact ⟨chainSchema, _, reached_chain, hcodec, hvalue,
    decodePrefix_encode reached_chain hcodec hvalue⟩

end Reached

end Wireform.Schema
