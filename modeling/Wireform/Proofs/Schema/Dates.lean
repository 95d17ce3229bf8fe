import Wireform.Proofs.Calendar.Timestamp
import Wireform.Proofs.Layout.Decidable
import Wireform.Proofs.Primitive.Integers
import Wireform.Proofs.Schema.Codecs
import Wireform.Proofs.Schema.Reached

/-!
# Dates

A date is written from a text or from any number of milliseconds, and read as a text. The numbers
are more than the instants that have a text, and those are more than the instants that a text is
read for: the years of such a text have four digits and no sign. So a date that was written from a
text is read, one that was written from a number only if that is in range, and a text that was read
is written again only if its year has four digits.

* `TypeCodec.exists_of_encode_date`: what is written.
* `TypeCodec.exists_of_decode_date`: what is read.
* `dates_agree`: **how far both directions agree**.
* `dates_disagree`: a number that is written and not read, and a text that is read and not written.
-/

namespace Wireform

open Timestamp (first last year parse? text?)

namespace TypeCodec

variable {codec : TypeCodec} {value : Json} {bytes : List UInt8} {millis : ℤ}

section Dates

variable (hid : codec.arena.get? codec.id = some codec.type)
  (hdate : codec.type.layout = .primitive .date)

include hid hdate

/-! ### Writing -/

theorem encode_of_millis {word : Int64} (h : Primitive.dateMillis value = pure word) :
    codec.encode value = .ok (Wire.intBytes .big 8 word.toInt) := by
  refine encode_ok_iff.2 ?_
  change Emits (codec.encodeInto value) _
  rw [encodeInto_primitive hid hdate]
  exact Emits.look h (Emits.emit _)

theorem encode_of_cause {cause : CodecError} (h : Primitive.dateMillis value = failWith cause) :
    codec.encode value = .error (.failure ⟨[], cause⟩) := by
  have hrun : codec.encodeInto value #[] = .error (.failure ⟨[], cause⟩) #[] := by
    rw [encodeInto_primitive hid hdate, Primitive.encode, h]
    rfl
  unfold encode
  rw [hrun]

/-- Only a text that is read and a number of 64 bits are written. -/
theorem exists_of_encode_date (h : codec.encode value = .ok bytes) :
    (∃ text millis, value = .string text ∧ parse? text = some millis ∧
      bytes = Wire.intBytes .big 8 millis) ∨
      ∃ n word, value = .number n ∧ n.toSignedWord? = some word ∧
        bytes = Wire.intBytes .big 8 word.toInt := by
  have hcause : ∀ cause, Primitive.dateMillis value ≠ failWith cause := by
    intro cause hcause
    rw [encode_of_cause hid hdate hcause] at h
    cases h
  have hwritten : ∀ word, Primitive.dateMillis value = pure word →
      bytes = Wire.intBytes .big 8 word.toInt := by
    intro word hword
    rw [encode_of_millis hid hdate hword] at h
    exact (Except.ok.inj h).symm
  cases value with
  | string text =>
    cases hparse : parse? text with
    | none =>
      exact absurd (by simp only [Primitive.dateMillis, hparse]) (hcause (.unreadableDate text))
    | some millis =>
      have hrange := Timestamp.parse?_bounds hparse
      have hword : (Int64.ofInt millis).toInt = millis := by
        unfold first last at hrange
        exact Int64.toInt_ofInt_of_le (by omega) (by omega)
      have hbytes := hwritten (Int64.ofInt millis) (by simp only [Primitive.dateMillis, hparse])
      rw [hword] at hbytes
      exact .inl ⟨text, millis, rfl, hparse, hbytes⟩
  | number n =>
    cases hn : n.toSignedWord? with
    | none => exact absurd (Primitive.signedWord_of_none "Date" hn) (hcause (.outOfRange n "Date"))
    | some word =>
      exact .inr ⟨n, word, rfl, hn, hwritten word (Primitive.signedWord_of_some "Date" hn)⟩
  | null | bool | array | object => exact absurd rfl (hcause (.typeMismatch .moment _))

/-! ### Reading -/

theorem decode_of_text {text : String} (hlow : -9223372036854775808 ≤ millis)
    (hhigh : millis < 9223372036854775808) (h : text? millis = some text) :
    codec.decode (Wire.intBytes .big 8 millis) = .ok (.string text) := by
  refine decode_of_yields ?_
  rw [arena_decode_primitive hid hdate]
  refine (Primitive.yields_millis hlow hhigh).read.last ?_
  simp only [h]
  exact Yields.pure _

theorem decode_of_none (hlow : -9223372036854775808 ≤ millis) (hhigh : millis < 9223372036854775808)
    (h : text? millis = none) :
    codec.decode (Wire.intBytes .big 8 millis) =
      .error (.failure ⟨[], .dateOutOfRange millis⟩) := by
  have hread := (Primitive.yields_millis hlow hhigh).read [] 0
  have hrun : Primitive.decode .date (.ofBytes (Wire.intBytes .big 8 millis)) =
      .error (.failure ⟨[], .dateOutOfRange millis⟩)
      ⟨[], 0 + (Wire.intBytes .big 8 millis).length⟩ := by
    rw [List.append_nil] at hread
    refine (bind_of_ok hread).trans ?_
    simp only [h]
    rfl
  unfold decode decodePrefix
  rw [arena_decode_primitive hid hdate, hrun]
  rfl

/-- Only the eight bytes of an instant that has a text are read. -/
theorem exists_of_decode_date (h : codec.decode bytes = .ok value) :
    ∃ text millis, value = .string text ∧ text? millis = some text ∧
      bytes = Wire.intBytes .big 8 millis := by
  unfold decode decodePrefix at h
  rw [arena_decode_primitive hid hdate] at h
  cases hrun : Primitive.decode .date (.ofBytes bytes) with
  | error stop after =>
    rw [hrun] at h
    cases h
  | ok found after =>
    simp only [hrun, bind, Except.bind] at h
    split at h
    next hused =>
      obtain rfl := Except.ok.inj h
      obtain ⟨millis, mid, hread, hlast⟩ := exists_of_bind_ok hrun
      obtain ⟨taken, mid', htake, hmillis⟩ := exists_of_bind_ok (read_ok_iff.1 hread)
      obtain ⟨rfl, rfl⟩ := EStateM.Result.ok.inj hmillis
      have hlength := (take_ok htake).2
      cases htext : text? (Wire.ofIntBytes .big taken) with
      | none =>
        simp only [htext] at hlast
        cases hlast
      | some text =>
        simp only [htext] at hlast
        obtain ⟨rfl, rfl⟩ := EStateM.Result.ok.inj hlast
        have hrest := (take_ok htake).1
        rw [((takes_take 8).before htake).rest_eq_nil hused, List.append_nil] at hrest
        have hbytes := Wire.intBytes_ofIntBytes .big taken
        rw [hlength] at hbytes
        exact ⟨text, _, rfl, htext, by rw [hbytes]; exact hrest⟩
    next => cases h

end Dates

end TypeCodec

namespace Schema

/-- An instant has a text from the first to the last of them. -/
theorem exists_text {millis : ℤ} (h : first ≤ millis ∧ millis ≤ last) :
    ∃ text, text? millis = some text :=
  ⟨_, if_pos h⟩

theorem bounds_of_text {millis : ℤ} {text : String} (h : text? millis = some text) :
    first ≤ millis ∧ millis ≤ last := by
  unfold Timestamp.text? at h
  split at h
  next hrange => exact hrange
  next => cases h

/-- **How far writing dates and reading them agree.** What is written for a text is read, and what
is written for a number is read if and only if the number is in range. What is read is written
again, byte for byte, if and only if its year has four digits. -/
theorem dates_agree {schema : Schema} {id : TypeId} {codec : TypeCodec}
    (hcodec : schema.codec? id = some codec) (hdate : codec.type.layout = .primitive .date) :
    (∀ value bytes, codec.encode value = .ok bytes → ∃ millis, bytes = Wire.intBytes .big 8 millis ∧
      ((∃ text, value = .string text ∧ parse? text = some millis ∧ first ≤ millis ∧ millis ≤ last) ∨
        ∃ n word, value = .number n ∧ n.toSignedWord? = some word ∧ word.toInt = millis) ∧
      (first ≤ millis ∧ millis ≤ last → ∃ text, codec.decode bytes = .ok (.string text)) ∧
      (¬(first ≤ millis ∧ millis ≤ last) →
        codec.decode bytes = .error (.failure ⟨[], .dateOutOfRange millis⟩))) ∧
    ∀ bytes value, codec.decode bytes = .ok value → ∃ text millis, value = .string text ∧
      bytes = Wire.intBytes .big 8 millis ∧ first ≤ millis ∧ millis ≤ last ∧
      (0 ≤ year millis ∧ year millis ≤ 9999 → codec.encode value = .ok bytes) ∧
      (¬(0 ≤ year millis ∧ year millis ≤ 9999) →
        codec.encode value = .error (.failure ⟨[], .unreadableDate text⟩)) := by
  obtain ⟨type, hid, rfl⟩ := Reached.codec?_eq hcodec
  -- both numbers of 64 bits and instants that have a text fit eight bytes
  have hread : ∀ millis : ℤ, -9223372036854775808 ≤ millis → millis < 9223372036854775808 →
      (first ≤ millis ∧ millis ≤ last → ∃ text, TypeCodec.decode ⟨schema.session.arena, id, type⟩
        (Wire.intBytes .big 8 millis) = .ok (.string text)) ∧
      (¬(first ≤ millis ∧ millis ≤ last) → TypeCodec.decode ⟨schema.session.arena, id, type⟩
        (Wire.intBytes .big 8 millis) = .error (.failure ⟨[], .dateOutOfRange millis⟩)) := by
    intro millis hlow hhigh
    refine ⟨fun hrange => ?_,
      fun hrange => TypeCodec.decode_of_none hid hdate hlow hhigh (if_neg hrange)⟩
    obtain ⟨text, htext⟩ := exists_text hrange
    exact ⟨text, TypeCodec.decode_of_text hid hdate hlow hhigh htext⟩
  refine ⟨fun value bytes hencode => ?_, fun bytes value hdecode => ?_⟩
  · rcases TypeCodec.exists_of_encode_date hid hdate hencode with
      ⟨text, millis, rfl, hparse, rfl⟩ | ⟨n, word, rfl, hn, rfl⟩
    · have hrange := Timestamp.parse?_bounds hparse
      have hfits : -9223372036854775808 ≤ millis ∧ millis < 9223372036854775808 := by
        unfold first last at hrange
        omega
      exact ⟨millis, rfl, .inl ⟨text, rfl, hparse, hrange⟩, hread millis hfits.1 hfits.2⟩
    · exact ⟨word.toInt, rfl, .inr ⟨n, word, rfl, hn, rfl⟩,
        hread word.toInt word.le_toInt word.toInt_lt⟩
  · obtain ⟨text, millis, rfl, htext, rfl⟩ := TypeCodec.exists_of_decode_date hid hdate hdecode
    have hrange := bounds_of_text htext
    refine ⟨text, millis, rfl, rfl, hrange.1, hrange.2, fun hyear => ?_, fun hyear => ?_⟩
    · have hparse := Timestamp.parse?_text? htext hyear.1 hyear.2
      have hword : (Int64.ofInt millis).toInt = millis := by
        unfold first last at hrange
        exact Int64.toInt_ofInt_of_le (by omega) (by omega)
      have hmillis : Primitive.dateMillis (.string text) = pure (Int64.ofInt millis) := by
        simp only [Primitive.dateMillis, hparse]
      have hencode := TypeCodec.encode_of_millis hid hdate hmillis
      rwa [hword] at hencode
    · have hparse := Timestamp.parse?_text?_none htext hyear
      exact TypeCodec.encode_of_cause hid hdate (by simp only [Primitive.dateMillis, hparse])

/-- A definition that gives dates a name. -/
def days : List (String × Definition) := [("Day", .synonym (.named "Date"))]

/-- Its schema. -/
def daysSchema : Schema := (compile days {}).toOption.get (by decide +kernel)

theorem compile_days : compile days {} = .ok daysSchema := eq_ok_get _

/-- The start of 1970, an hour west of universal time. -/
def hourWest : String := "1969-12-31T23:00:00-01:00"

theorem days_agree : ∃ schema codec, compile days {} = .ok schema ∧
    schema.codec? ⟨28⟩ = some codec ∧ codec.type.layout = .primitive .date ∧
    codec.encode (.string hourWest) = .ok [0, 0, 0, 0, 0, 0, 0, 0] ∧
    ∃ text, codec.decode [0, 0, 0, 0, 0, 0, 0, 0] = .ok (.string text) ∧
      codec.encode (.string text) = .ok [0, 0, 0, 0, 0, 0, 0, 0] := by
  have hruns : ((daysSchema.codec? ⟨28⟩).any fun codec =>
      decide (codec.type.layout = .primitive .date ∧
        codec.encode (.string hourWest) = .ok [0, 0, 0, 0, 0, 0, 0, 0])) = true := by
    decide +kernel
  obtain ⟨codec, hcodec, hruns⟩ := (Option.any_eq_true _ _).1 hruns
  obtain ⟨hdate, hencode⟩ := of_decide_eq_true hruns
  obtain ⟨hwritten, hread⟩ := dates_agree hcodec hdate
  -- the bytes are those of the instant zero only
  have hzero : ∀ millis : ℤ, [0, 0, 0, 0, 0, 0, 0, 0] = Wire.intBytes .big 8 millis →
      first ≤ millis ∧ millis ≤ last → millis = 0 := by
    intro millis hbytes hrange
    unfold first last at hrange
    have hhalf : ((Nat.pow 256 8 / 2 : ℕ) : ℤ) = 9223372036854775808 := rfl
    have hback : Wire.ofIntBytes .big (Wire.intBytes .big 8 millis) = millis :=
      Wire.ofIntBytes_intBytes .big (by omega) (by omega)
    rw [← hback, ← hbytes]
    decide
  obtain ⟨millis, hbytes, hsource, hdecode, -⟩ := hwritten _ _ hencode
  obtain ⟨text, htext⟩ : ∃ text, codec.decode [0, 0, 0, 0, 0, 0, 0, 0] = .ok (.string text) := by
    rcases hsource with ⟨_, -, -, hrange⟩ | ⟨_, _, hnumber, -⟩
    · exact hdecode hrange
    · cases hnumber
  obtain ⟨_, millis', heq, hbytes', hlow, hhigh, hagain, -⟩ := hread _ _ htext
  obtain rfl := hzero millis' hbytes' ⟨hlow, hhigh⟩
  exact ⟨daysSchema, codec, compile_days, hcodec, hdate, hencode, text, htext,
    hagain (by decide +kernel)⟩

/-- **A number that is written and not read, and a text that is read and not written.** -/
theorem dates_disagree : ∃ schema codec, compile days {} = .ok schema ∧
    schema.codec? ⟨28⟩ = some codec ∧ codec.type.layout = .primitive .date ∧
    codec.encode (.number (.ofInt64 9000000000000000)) =
      .ok [0x00, 0x1F, 0xF9, 0x73, 0xCA, 0xFA, 0x80, 0x00] ∧
    codec.decode [0x00, 0x1F, 0xF9, 0x73, 0xCA, 0xFA, 0x80, 0x00] =
      .error (.failure ⟨[], .dateOutOfRange 9000000000000000⟩) ∧
    codec.decode [0x00, 0x00, 0xE6, 0x77, 0xD2, 0x1F, 0xDC, 0x00] =
      .ok (.string "+10000-01-01T00:00:00.000Z") ∧
    codec.encode (.string "+10000-01-01T00:00:00.000Z") =
      .error (.failure ⟨[], .unreadableDate "+10000-01-01T00:00:00.000Z"⟩) := by
  have hruns : ((daysSchema.codec? ⟨28⟩).any fun codec =>
      decide (codec.type.layout = .primitive .date ∧
        codec.encode (.number (.ofInt64 9000000000000000)) =
          .ok [0x00, 0x1F, 0xF9, 0x73, 0xCA, 0xFA, 0x80, 0x00] ∧
        codec.decode [0x00, 0x1F, 0xF9, 0x73, 0xCA, 0xFA, 0x80, 0x00] =
          .error (.failure ⟨[], .dateOutOfRange 9000000000000000⟩) ∧
        codec.decode [0x00, 0x00, 0xE6, 0x77, 0xD2, 0x1F, 0xDC, 0x00] =
          .ok (.string "+10000-01-01T00:00:00.000Z") ∧
        codec.encode (.string "+10000-01-01T00:00:00.000Z") =
          .error (.failure ⟨[], .unreadableDate "+10000-01-01T00:00:00.000Z"⟩))) = true := by
    decide +kernel
  obtain ⟨codec, hcodec, hruns⟩ := (Option.any_eq_true _ _).1 hruns
  exact ⟨daysSchema, codec, compile_days, hcodec, of_decide_eq_true hruns⟩

end Schema

end Wireform
