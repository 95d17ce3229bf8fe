import Mathlib.Data.List.Forall2
import Wireform.Proofs.Codec.Writes
import Wireform.Codec.Decoding

/-!
# Bitmaps come back

* `bitsOfBytes_bitmapBytes`: the bits of a bitmap are the bits it was made of, and zeros.
* `isSet_presenceBits`: the bits of a struct's bitmap that are set.
-/

namespace Wireform.Codec

/-- The number whose binary digits are given, the lowest one first. -/
def ofBits : List Bool → ℕ
  | [] => 0
  | bit :: rest => bit.toNat + 2 * ofBits rest

theorem testBit_ofBits (bits : List Bool) (i : ℕ) : (ofBits bits).testBit i = isSet bits i := by
  unfold isSet
  induction bits generalizing i with
  | nil => simp [ofBits]
  | cons bit rest ih =>
    cases i with
    | zero => cases bit <;> simp [ofBits, Nat.testBit_zero]
    | succ i =>
      have hhalf : ofBits (bit :: rest) / 2 = ofBits rest := by
        have := bit.toNat_le
        rw [ofBits]
        omega
      rw [Nat.testBit_succ, hhalf, ih, List.getElem?_cons_succ]

theorem ofBits_lt (bits : List Bool) : ofBits bits < 2 ^ bits.length := by
  induction bits with
  | nil => exact Nat.one_pos
  | cons bit rest ih =>
    rw [ofBits, List.length_cons, Nat.pow_succ]
    have := bit.toNat_le
    omega

theorem toNat_byteOfBits {bits : List Bool} (h : bits.length ≤ 8) :
    (byteOfBits bits).toNat = ofBits bits := by
  have hfold : bits.foldr (fun bit rest => bit.toNat + 2 * rest) 0 = ofBits bits := by
    clear h
    induction bits with
    | nil => rfl
    | cons bit rest ih => rw [List.foldr_cons, ih, ofBits]
  have hlt := ofBits_lt bits
  have hpow : 2 ^ bits.length ≤ 2 ^ 8 := Nat.pow_le_pow_right (by decide) h
  rw [byteOfBits, UInt8.toNat_ofNat', hfold]
  exact Nat.mod_eq_of_lt (by omega)

/-- The bits of one byte, and zeros. -/
theorem bits_byteOfBits {bits : List Bool} (h : bits.length ≤ 8) :
    (List.range 8).map (byteOfBits bits).toNat.testBit =
      bits ++ List.replicate (8 - bits.length) false := by
  apply List.ext_getElem
  · simp
    omega
  · intro i hi hi'
    rw [List.getElem_map, List.getElem_range, toNat_byteOfBits h, testBit_ofBits, isSet]
    rcases Nat.lt_or_ge i bits.length with hlt | hge
    · rw [List.getElem_append_left hlt, List.getElem?_eq_getElem hlt]
      rfl
    · rw [List.getElem_append_right hge, List.getElem_replicate, List.getElem?_eq_none hge]
      rfl

/-- **The bits of a bitmap.** -/
theorem bitsOfBytes_bitmapBytes {count : ℕ} {bits : List Bool} (h : bits.length ≤ 8 * count) :
    bitsOfBytes (bitmapBytes count bits) =
      bits ++ List.replicate (8 * count - bits.length) false := by
  induction count generalizing bits with
  | zero =>
    obtain rfl : bits = [] := List.length_eq_zero_iff.1 (by omega)
    rfl
  | succ count ih =>
    have hrest : (bits.drop 8).length ≤ 8 * count := by
      rw [List.length_drop]
      omega
    have hfirst : (bits.take 8).length ≤ 8 := by
      rw [List.length_take]
      omega
    rw [bitmapBytes, bitsOfBytes, List.flatMap_cons, bits_byteOfBits hfirst]
    change _ ++ bitsOfBytes _ = _
    rw [ih hrest]
    rcases Nat.lt_or_ge bits.length 8 with hlt | hge
    · -- the bits end in this byte
      rw [List.take_of_length_le (by omega), List.drop_of_length_le (by omega), List.nil_append,
        List.append_assoc, List.replicate_append_replicate]
      congr 2
      rw [List.length_nil]
      omega
    -- the byte is full, and the bits go on
    · have hfull : 8 - (bits.take 8).length = 0 := by
        rw [List.length_take]
        omega
      rw [hfull, List.replicate_zero, List.append_nil, ← List.append_assoc, List.take_append_drop,
        List.length_drop]
      congr 2
      omega

theorem le_bitmapLength (bits : ℕ) : bits ≤ 8 * bitmapLength bits := by
  unfold bitmapLength
  omega

/-- Every bit is found again under its number, and no others are set. -/
theorem isSet_bitmap {count : ℕ} {bits : List Bool} (h : bits.length ≤ 8 * count) (bit : ℕ) :
    isSet (bitsOfBytes (bitmapBytes count bits)) bit = isSet bits bit := by
  rw [bitsOfBytes_bitmapBytes h]
  unfold isSet
  rcases Nat.lt_or_ge bit bits.length with hlt | hge
  · rw [List.getElem?_append_left hlt]
  · rw [List.getElem?_append_right hge, List.getElem?_eq_none hge, List.getElem?_replicate]
    split <;> rfl

/-! ### The bitmap of a struct -/

theorem mem_presentBits {fields : List FieldLayout} {value : Json} {bit : ℕ} :
    bit ∈ presentBits fields value ↔
      ∃ field ∈ fields, field.bit? = some bit ∧ isPresent (valueAt? value field.place) = true := by
  unfold presentBits
  rw [List.mem_filterMap]
  refine exists_congr fun field => and_congr_right fun _ => ?_
  obtain ⟨place, content⟩ := field
  cases content with
  | constant | literal => simp [FieldLayout.bit?]
  | value type presence => cases presence <;> simp [FieldLayout.bit?, and_comm]

@[simp]
theorem length_presenceBits (s : StructLayout) (value : Json) :
    (presenceBits s value).length = 8 * s.bitmapBytes := by
  rw [presenceBits, List.length_map, List.length_range]

/-- **The bits that are set** have the numbers of the fields that are there. -/
theorem isSet_presenceBits {s : StructLayout} {value : Json} {bit : ℕ} :
    isSet (presenceBits s value) bit = true ↔
      bit < 8 * s.bitmapBytes ∧ bit ∈ presentBits s.fields value := by
  unfold isSet presenceBits
  rw [List.getElem?_map]
  rcases Nat.lt_or_ge bit (8 * s.bitmapBytes) with hlt | hge
  · rw [List.getElem?_range hlt]
    simp [hlt]
  · rw [List.getElem?_eq_none (by rwa [List.length_range])]
    simp [hge]

end Wireform.Codec
