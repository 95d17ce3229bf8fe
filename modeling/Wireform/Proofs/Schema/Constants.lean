import Wireform.Proofs.Codec.Echo
import Wireform.Proofs.Layout.Decidable
import Wireform.Proofs.Schema.Reached

/-!
# Verified constants

With strict constants, decoding compares each constant as it was given with the one that it reads. A
schema may well refuse its own encodings then: a constant such as `3.14` is narrowed by a single,
and what is read back is not `3.14` any more. But a constant that is recognized in what is read from
its own bytes is so wherever it stands.

* `Reached.decode_sparesConstants`: **encodings are not refused for a constant**, if constants and
  tags are recognized in what is read from their bytes.
* `ratio_rivals_refused`: a constant and a tag that are not.
-/

namespace Wireform

namespace Schema

namespace Reached

variable {definitions : List (String × Definition)} {options : Options} {schema : Schema}

/-- **Encodings are not refused for a constant**, whatever follows them, if constants and tags are
recognized in what is read from their bytes, and sizes are words. -/
theorem decode_sparesConstants (h : Reached definitions options schema)
    (hechoed : schema.session.arena.Echoed) {id : TypeId} {codec : TypeCodec}
    (hcodec : schema.codec? id = some codec) {value : Json} {bytes : List UInt8}
    (hencode : codec.encode value = .ok bytes) (hlength : bytes.length < 2 ^ 64)
    (hweight : value.weight + schema.session.arena.constantWeight < 2 ^ 64) (path : List PathStep)
    (expected found : Json) :
    (∀ rest, codec.decodePrefix (bytes ++ rest) ≠
      .error (.failure ⟨path, .constantMismatch expected found⟩)) ∧
      codec.decode bytes ≠ .error (.failure ⟨path, .constantMismatch expected found⟩) := by
  obtain ⟨type, htype, rfl⟩ := codec?_eq hcodec
  have hemits : Emits (schema.session.arena.encode id value) bytes := by
    unfold TypeCodec.encode at hencode
    split at hencode
    · next after hrun =>
      obtain rfl := Except.ok.inj hencode
      exact Emits.of_ok (Arena.steady_encode id value) hrun
    · cases hencode
  have hpasses := h.grounded.passes_decode hechoed hweight hemits hlength
  have hfront : ∀ rest, TypeCodec.decodePrefix ⟨schema.session.arena, id, type⟩ (bytes ++ rest) ≠
      .error (.failure ⟨path, .constantMismatch expected found⟩) := by
    intro rest heq
    have hrun := hpasses rest 0
    unfold Ensures at hrun
    unfold TypeCodec.decodePrefix at heq
    split at heq
    · cases heq
    · next stop after hstop =>
      obtain rfl := Except.error.inj heq
      rw [Cursor.ofBytes] at hstop
      rw [hstop] at hrun
      exact hrun path expected found rfl
  refine ⟨hfront, fun heq => ?_⟩
  have halone := hfront []
  rw [List.append_nil] at halone
  unfold TypeCodec.decode at heq
  cases hrun : TypeCodec.decodePrefix ⟨schema.session.arena, id, type⟩ bytes with
  | error stop =>
    rw [hrun] at heq
    obtain rfl := Except.error.inj heq
    exact halone hrun
  | ok result =>
    rw [hrun] at heq
    dsimp only [bind, Except.bind] at heq
    split at heq <;> cases heq

end Reached

/-- An enum of two structs, each with a constant. -/
def signals : List (String × Definition) :=
  [("Ping",
    .struct (.object [.constant (.named "u16") (.ofUInt64 513), .typed (some "n") (.named "u8")])),
    ("Halt", .struct (.object [.constant (.named "bool") (.bool true)])),
    ("Signal", .enum ⟨.object, none, none, [⟨.ofUInt64 0, "Ping"⟩, ⟨.ofUInt64 1, "Halt"⟩], []⟩)]

/-- Their schema, in which constants are verified. -/
def signalsSchema : Schema :=
  (compile signals { strictConstants := true }).toOption.get (by decide +kernel)

theorem signals_sparesConstants :
    ∃ schema codec, Reached signals { strictConstants := true } schema ∧
    schema.session.arena.Echoed ∧ schema.codec? ⟨31⟩ = some codec ∧
    codec.encode (.object [("type", .string "Ping"), ("n", .ofUInt64 5)]) = .ok [0, 2, 1, 5] ∧
    ∀ path expected found,
      (∀ rest, codec.decodePrefix ([0, 2, 1, 5] ++ rest) ≠
        .error (.failure ⟨path, .constantMismatch expected found⟩)) ∧
      codec.decode [0, 2, 1, 5] ≠ .error (.failure ⟨path, .constantMismatch expected found⟩) := by
  have hruns :
      ((signalsSchema.codec? ⟨31⟩).any fun codec => decide (signalsSchema.session.arena.Echoed ∧
      (codec.encode (.object [("type", .string "Ping"), ("n", .ofUInt64 5)])).toOption =
        some [0, 2, 1, 5] ∧
      (Json.object [("type", .string "Ping"), ("n", .ofUInt64 5)]).weight +
        signalsSchema.session.arena.constantWeight < 2 ^ 64)) = true := by
    decide +kernel
  obtain ⟨codec, hcodec, hruns⟩ := (Option.any_eq_true _ _).1 hruns
  obtain ⟨hechoed, hencode, hweight⟩ := of_decide_eq_true hruns
  have h : Reached signals { strictConstants := true } signalsSchema := .compile (eq_ok_get _)
  have hrun := ok_of_toOption hencode
  exact ⟨signalsSchema, codec, h, hechoed, hcodec, hrun, fun path expected found =>
    h.decode_sparesConstants hechoed hcodec hrun (by decide) hweight path expected found⟩

/-- A constant that a single does not hold exactly, `3.14`. -/
def ratio : List (String × Definition) :=
  [("Ratio", .struct (.object [.constant (.named "f32") (.ofBinary64 ⟨0x40091EB851EB851F⟩)]))]

/-- Two variants with one tag and different constants. -/
def rivals : List (String × Definition) :=
  [("A", .struct (.object [.constant (.named "u8") (.ofUInt64 5)])),
    ("B", .struct (.object [.constant (.named "u8") (.ofUInt64 6)])),
    ("E", .enum ⟨.object, none, none, [⟨.ofUInt64 0, "A"⟩, ⟨.ofUInt64 0, "B"⟩], []⟩)]

/-- A schema encodes a value of a type, and refuses the bytes for a constant. -/
def Refuses (definitions : List (String × Definition)) (id : TypeId) (value : Json)
    (bytes : List UInt8) (expected found : Json) : Prop :=
  ∃ schema codec, Reached definitions { strictConstants := true } schema ∧
    schema.codec? id = some codec ∧ codec.encode value = .ok bytes ∧
    ∃ path, codec.decode bytes = .error (.failure ⟨path, .constantMismatch expected found⟩)

theorem refuses_of_compile {definitions : List (String × Definition)} {id : TypeId} {value : Json}
    {bytes : List UInt8} {expected found : Json} (path : List PathStep)
    (h : (compile definitions { strictConstants := true }).toOption.any
      (fun schema => (schema.codec? id).any fun codec =>
      decide (codec.encode value = .ok bytes ∧
        codec.decode bytes = .error (.failure ⟨path, .constantMismatch expected found⟩))) = true) :
    Refuses definitions id value bytes expected found := by
  obtain ⟨schema, hschema, h⟩ := (Option.any_eq_true _ _).1 h
  obtain ⟨codec, hcodec, h⟩ := (Option.any_eq_true _ _).1 h
  obtain ⟨hencode, hdecode⟩ := of_decide_eq_true h
  exact ⟨schema, codec, .compile (ok_of_toOption hschema), hcodec, hencode, path, hdecode⟩

/-- **Schemas that refuse their own encodings:** a single is read back as the nearest one, and a tag
may lead to the constant of another variant. -/
theorem ratio_rivals_refused :
    Refuses ratio ⟨29⟩ (.object []) [0x40, 0x48, 0xF5, 0xC3] (.ofBinary64 ⟨0x40091EB851EB851F⟩)
      (.ofBinary64 ⟨0x40091EB860000000⟩) ∧
    Refuses rivals ⟨31⟩ (.object [("type", .string "B")]) [0, 6] (.ofUInt64 5) (.ofUInt64 6) :=
  ⟨refuses_of_compile [] (by decide +kernel), refuses_of_compile [.variant "A"] (by decide +kernel)⟩

end Schema

end Wireform
