import Wireform.Proofs.Codec.Consumption
import Wireform.Proofs.Codec.Format
import Wireform.Schema

/-!
# Codecs and the runs behind them

A codec encodes onto the empty buffer and decodes from the start of its input. What it gives there
is what it gives behind any bytes and in front of any bytes.

* `TypeCodec.encode_ok_iff`: the bytes of a value are those that are appended to any buffer.
* `TypeCodec.decode_of_yields`, `TypeCodec.yields_of_decode`: bytes that are decoded are those
  that are taken at any place.
* `TypeCodec.encodeInto_primitive`, `TypeCodec.arena_decode_primitive`: a codec of a
  primitive type is that primitive.
-/

namespace Wireform

/-- A cursor that counts all bytes of its input has none left. -/
theorem Cursor.Before.rest_eq_nil {bytes : List UInt8} {after : Cursor}
    (h : (Cursor.ofBytes bytes).Before after) (hused : after.offset = bytes.length) :
    after.rest = [] := by
  obtain ⟨taken, hrest, hoffset⟩ := h
  have hlength : bytes.length = taken.length + after.rest.length := by
    rw [← List.length_append]
    exact congrArg List.length hrest
  change after.offset = 0 + taken.length at hoffset
  exact List.length_eq_zero_iff.1 (by omega)

namespace TypeCodec

variable {codec : TypeCodec} {value : Json} {bytes : List UInt8}

theorem encode_ok_iff : codec.encode value = .ok bytes ↔
    Emits (codec.arena.encode codec.id value) bytes := by
  unfold encode encodeInto
  constructor
  · intro h
    split at h
    · next out hrun =>
      obtain rfl := Except.ok.inj h
      exact Emits.of_ok (Arena.steady_encode codec.id value) hrun
    · cases h
  · intro h
    have hrun := h #[]
    rw [Array.empty_append] at hrun
    rw [hrun]

theorem decodePrefix_of_yields (h : Yields (codec.arena.decode codec.id) bytes value)
    (rest : List UInt8) :
    codec.decodePrefix (bytes ++ rest) = .ok (value, bytes.length) := by
  have hrun := h rest 0
  simp only [decodePrefix, Cursor.ofBytes, hrun, Nat.zero_add]

theorem decode_of_yields (h : Yields (codec.arena.decode codec.id) bytes value) :
    codec.decode bytes = .ok value := by
  have hfront := decodePrefix_of_yields h []
  rw [List.append_nil] at hfront
  simp only [decode, hfront, bind, Except.bind, if_true]

theorem yields_of_decode (hgrounded : codec.arena.Grounded) (h : codec.decode bytes = .ok value) :
    Yields (codec.arena.decode codec.id) bytes value := by
  unfold decode decodePrefix at h
  cases hrun : codec.arena.decode codec.id (.ofBytes bytes) with
  | error stop after =>
    simp only [hrun, bind, Except.bind] at h
    cases h
  | ok found after =>
    simp only [hrun, bind, Except.bind] at h
    split at h
    · next hused =>
      obtain rfl := Except.ok.inj h
      obtain ⟨taken, hrest, hyields⟩ := hgrounded.takes_decode codec.id _ _ _ hrun
      have hnone := ((hgrounded.takes_decode codec.id).before hrun).rest_eq_nil hused
      change bytes = taken ++ after.rest at hrest
      rw [hnone, List.append_nil] at hrest
      rwa [hrest]
    · cases h

/-! ### Primitives -/

theorem encodeInto_primitive {p : Primitive} (hid : codec.arena.get? codec.id = some codec.type)
    (hl : codec.type.layout = .primitive p) (value : Json) :
    codec.encodeInto value = p.encode value := by
  unfold encodeInto Arena.encode Arena.encodeLevels
  rw [Arena.encodeWithin_succ hid, hl]
  rfl

theorem arena_decode_primitive {p : Primitive} (hid : codec.arena.get? codec.id = some codec.type)
    (hl : codec.type.layout = .primitive p) : codec.arena.decode codec.id = p.decode := by
  funext cursor
  have hlevels : codec.arena.decodeLevels cursor.rest.length =
      cursor.rest.length * (codec.arena.size + 1) + codec.arena.size + 1 := Nat.succ_mul _ _
  unfold Arena.decode
  rw [hlevels, Arena.decodeWithin_succ hid, hl]
  rfl

end TypeCodec

end Wireform
