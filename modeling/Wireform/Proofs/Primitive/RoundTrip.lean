import Wireform.Proofs.Binary64.Single
import Wireform.Proofs.Codec.Canonical
import Wireform.Proofs.Codec.EncodeLevels
import Wireform.Proofs.Codec.Reads

/-!
# Primitives come back

* `Emits`: what an encoding appends, whatever the buffer.
* `Primitive.round_trip`: a canonical value of a primitive is written as bytes that are
  read as the value, whatever bytes follow.
-/

namespace Wireform

/-- Bytes are appended, whatever the buffer. -/
def Emits (x : Encoding Unit) (bytes : List UInt8) : Prop :=
  ∀ buffer, x buffer = .ok () (buffer ++ bytes.toArray)

namespace Emits

variable {x y : Encoding Unit} {bytes bytes' : List UInt8}

theorem nothing : Emits (pure ()) [] := by
  intro buffer
  rw [Array.append_empty]
  rfl

theorem emit (bytes : List UInt8) : Emits (Wireform.emit bytes) bytes := fun _ => rfl

theorem andThen (hx : Emits x bytes) (hy : Emits y bytes') :
    Emits (x >>= fun _ => y) (bytes ++ bytes') := by
  intro buffer
  rw [bind_of_ok (hx buffer), hy, ← List.append_toArray, Array.append_assoc]

theorem inside (step : PathStep) (h : Emits x bytes) : Emits (Wireform.inside step x) bytes :=
  fun buffer => (inside_ok_iff step).2 (h buffer)

/-- A step that has a result and leaves the buffer as it is. -/
theorem look {α : Type} {z : Encoding α} {a : α} {f : α → Encoding Unit} (hz : z = pure a)
    (h : Emits (f a) bytes) : Emits (z >>= f) bytes := by
  rw [hz]
  exact h

theorem of_repeats (hx : Emits x bytes) (h : Repeats x y) : Emits y bytes := by
  obtain ⟨out, heq, hy⟩ := h.of_ok (hx #[])
  rw [Array.empty_append, Array.empty_append] at heq
  rw [← heq] at hy
  exact hy

/-- What appends bytes once appends them always. -/
theorem of_ok (h : Repeats x x) (hx : x #[] = .ok () bytes.toArray) : Emits x bytes := by
  obtain ⟨out, heq, hall⟩ := h.of_ok hx
  rw [Array.empty_append] at heq
  rw [← heq] at hall
  exact hall

/-- What is appended is no shorter than the lower bound. -/
theorem le_length (hx : Emits x bytes) {least : ℕ} {greatest : ℕ∞} (h : Writes least greatest x) :
    least ≤ bytes.length := by
  obtain ⟨n, hn, hle, -⟩ := (h #[]).of_ok (hx #[])
  rw [Array.empty_append, List.size_toArray, Array.size_empty, Nat.zero_add] at hn
  rw [hn]
  exact Nat.cast_le.1 hle

end Emits

namespace Json

variable {n : ℤ} (fits : -9223372036854775808 ≤ n ∧ n < 18446744073709551616)

theorem ofUInt64_integer (h : 0 ≤ n) :
    ofUInt64 (UInt64.ofNat n.toNat) = .number (.integer n fits) := by
  have hword : ((UInt64.ofNat n.toNat).toNat : ℤ) = n := by
    rw [UInt64.toNat_ofNat']
    omega
  unfold ofUInt64 Number.ofUInt64
  congr 2

theorem ofInt64_integer (h : n < 9223372036854775808) :
    ofInt64 (Int64.ofInt n) = .number (.integer n fits) := by
  have hword : (Int64.ofInt n).toInt = n := Int64.toInt_ofInt_of_le (by omega) (by omega)
  unfold ofInt64 Number.ofInt64
  congr 2

theorem ofBinary64_float {x : Binary64} (finite : x.isFinite = true) :
    ofBinary64 x = .number (.float x finite) := by
  unfold ofBinary64 Number.ofBinary64?
  rw [dif_pos finite]

end Json

namespace Primitive

variable {n : ℤ} {fits : -9223372036854775808 ≤ n ∧ n < 18446744073709551616}

theorem unsignedWord_integer {σ : Type} (type : String) (h : 0 ≤ n) :
    unsignedWord (σ := σ) type (.number (.integer n fits)) = pure (UInt64.ofNat n.toNat) := by
  simp only [unsignedWord, Number.toWord?, Number.toUnsigned?, if_pos h]

theorem signedWord_integer {σ : Type} (type : String) (h : n < 9223372036854775808) :
    signedWord (σ := σ) type (.number (.integer n fits)) = pure (Int64.ofInt n) := by
  simp only [signedWord, Number.toSignedWord?, Number.toSigned?, if_pos h]

/-- Code units come back from their bytes. -/
theorem codeUnits?_bytes (units : List UInt16) :
    codeUnits? (units.flatMap fun unit => Wire.natBytes .little 2 unit.toNat) = some units := by
  induction units with
  | nil => rfl
  | cons unit rest ih =>
    have hbytes : Wire.ofLittleEndian (Wire.littleEndian 2 unit.toNat) = unit.toNat := by
      rw [Wire.ofLittleEndian_littleEndian]
      exact Nat.mod_eq_of_lt unit.toNat_lt
    rw [List.flatMap_cons]
    change (codeUnits? (rest.flatMap fun unit => Wire.natBytes .little 2 unit.toNat)).map
      (UInt16.ofNat (Wire.ofLittleEndian (Wire.littleEndian 2 unit.toNat)) :: ·) = _
    rw [ih, hbytes, UInt16.ofNat_toNat]
    rfl

theorem textOfBytes?_textBytes (encoding : TextEncoding) (text : String) :
    textOfBytes? encoding (textBytes encoding text) = some text := by
  cases encoding with
  | utf8 => exact Text.ofUtf8?_utf8 text
  | utf16le =>
    simp only [textOfBytes?, textBytes, codeUnits?_bytes, Text.ofUtf16?_utf16, Option.bind_eq_bind,
      Option.bind_some, Option.pure_def, String.ofList_toList]

theorem emits_encodeText (encoding : TextEncoding) (text : String) :
    Emits (encodeText encoding text)
      (Wire.uvarBytes (textBytes encoding text).length ++ textBytes encoding text) :=
  (Emits.emit _).andThen (Emits.emit _)

theorem yields_uvar {value : ℕ} (h : value < 2 ^ 64) :
    Yields Cursor.uvar (Wire.uvarBytes value) value := by
  intro rest offset
  rw [Cursor.uvar_uvarBytes h, Wire.length_uvarBytes]

theorem yields_uint (order : ByteOrder) {width value : ℕ} (h : value < Nat.pow 256 width) :
    Yields (Cursor.uint order width) (Wire.natBytes order width value) value := by
  intro rest offset
  rw [Cursor.uint_natBytes order h, Wire.length_natBytes]

theorem yields_int (order : ByteOrder) {width : ℕ} {value : ℤ}
    (hlow : -((Nat.pow 256 width / 2 : ℕ) : ℤ) ≤ value)
    (hhigh : value < ((Nat.pow 256 width / 2 : ℕ) : ℤ)) :
    Yields (Cursor.int order width) (Wire.intBytes order width value) value := by
  intro rest offset
  rw [Cursor.int_intBytes order hlow hhigh, Wire.length_intBytes]

/-- The bytes of an instant are read as that instant. -/
theorem yields_millis {millis : ℤ} (hlow : -9223372036854775808 ≤ millis)
    (hhigh : millis < 9223372036854775808) :
    Yields (Cursor.int .big 8) (Wire.intBytes .big 8 millis) millis := by
  have hhalf : ((Nat.pow 256 8 / 2 : ℕ) : ℤ) = 9223372036854775808 := rfl
  exact yields_int .big (by omega) (by omega)

theorem yields_decodeText (encoding : TextEncoding) {text : String}
    (h : (textBytes encoding text).length < 2 ^ 64) :
    Yields (decodeText encoding)
      (Wire.uvarBytes (textBytes encoding text).length ++ textBytes encoding text) text := by
  refine (yields_uvar h).read.bind ((Yields.take _).read.last ?_)
  rw [textOfBytes?_textBytes]
  exact Yields.pure text

/-- A value that a primitive returns comes back whatever bytes follow. -/
theorem round_trip_of_returns {p : Primitive} {value : Json} (h : p.Returns value) :
    ∃ bytes, Emits (p.encode value) bytes ∧ Yields p.decode bytes value := by
  obtain ⟨out, hencode, hdecode⟩ := h
  obtain ⟨taken, hrest, hyields⟩ := takes_primitive p _ _ _ hdecode
  rw [List.append_nil] at hrest
  obtain rfl : out = taken := hrest
  exact ⟨out, Emits.of_ok (repeats_primitive p value) hencode, hyields⟩

theorem half_le (width : Width) : width.words / 2 ≤ 9223372036854775808 := by
  cases width <;> decide

/-- **A canonical value of a primitive comes back.** -/
theorem round_trip (p : Primitive) {value : Json} (h : p.Canonical value) :
    ∃ bytes, Emits (p.encode value) bytes ∧ Yields p.decode bytes value := by
  cases p with
  | uint width order =>
    obtain ⟨n, fits, rfl, hlow, hhigh⟩ := h
    have hword : (UInt64.ofNat n.toNat).toNat = n.toNat := by
      rw [UInt64.toNat_ofNat']
      omega
    -- the word is the integer, and the width has room for it
    have hlt : n.toNat < width.words := by omega
    refine ⟨Wire.natBytes order width.bytes n.toNat, ?_, ?_⟩
    · refine Emits.look (unsignedWord_integer _ hlow) ?_
      rw [hword, if_pos hlt]
      exact Emits.emit _
    · rw [← Json.ofUInt64_integer fits hlow]
      exact (yields_uint order hlt).read.last (Yields.pure _)
  | int width order =>
    obtain ⟨n, fits, rfl, hlow, hhigh⟩ := h
    have hhalf := half_le width
    have hword : (Int64.ofInt n).toInt = n := Int64.toInt_ofInt_of_le (by omega) (by omega)
    refine ⟨Wire.intBytes order width.bytes n, ?_, ?_⟩
    · refine Emits.look (signedWord_integer _ (by omega)) ?_
      dsimp only
      rw [hword, if_pos ⟨hlow, hhigh⟩]
      exact Emits.emit _
    · rw [← Json.ofInt64_integer fits (by omega)]
      exact (yields_int order hlow hhigh).read.last (Yields.pure _)
  | single order =>
    obtain ⟨bits, hfinite, rfl⟩ := h
    refine ⟨Wire.natBytes order 4 bits.toNat, ?_, ?_⟩
    · rw [Json.ofBinary64_float hfinite]
      refine Emits.look (a := Binary64.ofSingleBits bits) rfl ?_
      -- the writer narrows to the single that was widened
      rw [Binary64.toSingleBits_ofSingleBits hfinite]
      exact Emits.emit _
    · refine (yields_uint order bits.toNat_lt).read.last ?_
      rw [UInt32.ofNat_toNat]
      exact Yields.pure _
  | double order =>
    obtain ⟨x, hfinite, rfl⟩ := h
    refine ⟨Wire.natBytes order 8 x.bits.toNat, ?_, ?_⟩
    · rw [Json.ofBinary64_float hfinite]
      refine Emits.look (a := x) rfl ?_
      exact Emits.emit _
    · refine (yields_uint order x.bits.toNat_lt).read.last ?_
      rw [UInt64.ofNat_toNat]
      exact Yields.pure _
  | bool =>
    obtain ⟨b, rfl⟩ := h
    refine ⟨[if b then 1 else 0], Emits.emit _, fun rest offset => ?_⟩
    cases b <;> rfl
  | uvar =>
    obtain ⟨n, fits, rfl, hlow⟩ := h
    have hword : (UInt64.ofNat n.toNat).toNat = n.toNat := by
      rw [UInt64.toNat_ofNat']
      omega
    refine ⟨Wire.uvarBytes n.toNat, ?_, ?_⟩
    · refine Emits.look (unsignedWord_integer _ hlow) ?_
      rw [hword]
      exact Emits.emit _
    · rw [← Json.ofUInt64_integer fits hlow]
      exact (yields_uvar (by omega)).read.last (Yields.pure _)
  | ivar =>
    obtain ⟨n, fits, rfl, hhigh⟩ := h
    have hword : (Int64.ofInt n).toInt = n := Int64.toInt_ofInt_of_le (by omega) (by omega)
    refine ⟨Wire.uvarBytes (Wire.zigzag n), ?_, ?_⟩
    · refine Emits.look (signedWord_integer _ hhigh) ?_
      rw [hword]
      exact Emits.emit _
    · rw [← Json.ofInt64_integer fits hhigh]
      refine (yields_uvar (Wire.zigzag_lt (by omega) hhigh)).read.last ?_
      rw [Wire.unzigzag_zigzag]
      exact Yields.pure _
  | string encoding =>
    obtain ⟨text, rfl, hlength⟩ := h
    refine ⟨_, emits_encodeText encoding text, ?_⟩
    exact (yields_decodeText encoding hlength).last (Yields.pure _)
  | json | date => exact round_trip_of_returns h

end Primitive

end Wireform
