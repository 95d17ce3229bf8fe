import Mathlib.Tactic.Common
import Wireform.Proofs.Codec.Reads
import Wireform.Proofs.Wire.Integer

/-!
# Variable-length integers are a shortest prefix code

The first byte tells how many bytes there are, and the others carry the number. So a number
can be written in more bytes than it needs, by zeros in front, but in one way only in as many
as it needs; and no bytes that stand for a number go on to stand for another one.

* `first_byte_of_ones`: what a first byte is, given the number of its leading ones.
* `shape_of_yields_uvar`: the bytes that are read as a number.
* `toNat_zigzagWord`, `toInt_unzigzagWord`: zigzag by shifts of 64-bit words.
* `uvar_shortestPrefixCode`: **an exact, shortest prefix code of all words, and zigzag is one to
  one**.
-/

namespace Wireform.Wire

/-! ### First bytes -/

/-- A byte with a given number of leading ones is these ones, a zero, and what the
other bits stand for. -/
theorem first_byte_of_ones {first : UInt8} {extra : ℕ} (h : leadingOnes first = extra)
    (hextra : extra ≤ 7) :
    256 - Nat.pow 2 (8 - extra) + first.toNat % Nat.pow 2 (7 - extra) = first.toNat := by
  unfold leadingOnes at h
  split at h
  · omega
  · next hne =>
    have hbyte := first.toNat_lt
    have hfull : first.toNat ≠ 255 := fun heq => hne (UInt8.toNat_inj.1 heq)
    -- the first zero is the highest bit of the complement
    have hlog : Nat.log2 (255 - first.toNat) = 7 - extra := by
      have : Nat.log2 (255 - first.toNat) < 8 := (Nat.log2_lt (by omega)).2 (by omega)
      omega
    rw [Nat.log2_eq_iff (by omega), Nat.pow_succ] at hlog
    have hsplit : Nat.pow 2 (8 - extra) = 2 * 2 ^ (7 - extra) := by
      rw [show 8 - extra = (7 - extra) + 1 by omega]
      exact Nat.pow_succ'
    obtain ⟨high, hhigh⟩ : ∃ high, first.toNat = 256 - Nat.pow 2 (8 - extra) + high :=
      ⟨first.toNat - (256 - Nat.pow 2 (8 - extra)), by omega⟩
    have hlow : high < 2 ^ (7 - extra) := by omega
    obtain ⟨-, hmod⟩ := Cursor.first_byte hextra hlow
    rw [← hhigh, UInt8.ofNat_toNat] at hmod
    rw [hmod, hhigh]

theorem eq_of_leadingOnes_eight {first : UInt8} (h : leadingOnes first = 8) : first = 0xFF := by
  unfold leadingOnes at h
  split at h
  · next heq => exact heq
  · omega

theorem leadingOnes_le (first : UInt8) : leadingOnes first ≤ 8 := by
  unfold leadingOnes
  split <;> omega

/-- Bytes are those of any number that they stand for up to a multiple. -/
theorem natBytes_eq_of_mod (order : ByteOrder) {value : ℕ} {bytes : List UInt8}
    (h : value % Nat.pow 256 bytes.length = ofNatBytes order bytes) :
    natBytes order bytes.length value = bytes := by
  have hsame := natBytes_ofNatBytes order (natBytes order bytes.length value)
  rwa [length_natBytes, ofNatBytes_natBytes, h, natBytes_ofNatBytes, eq_comm] at hsame

/-! ### What is read as a number -/

/-- What a first byte and the bytes behind it stand for. -/
def uvarValue (first : UInt8) (tail : List UInt8) : ℕ :=
  if tail.length = 8 then ofNatBytes .big tail
  else first.toNat % Nat.pow 2 (7 - tail.length) * Nat.pow 256 tail.length + ofNatBytes .big tail

/-- **The bytes that are read as a number** are a first byte and as many others as it says. -/
theorem shape_of_yields_uvar {bytes : List UInt8} {value : ℕ} (h : Yields Cursor.uvar bytes value) :
    ∃ first tail, bytes = first :: tail ∧ leadingOnes first = tail.length ∧
      value = uvarValue first tail := by
  have hrun := h [] 0
  rw [List.append_nil] at hrun
  obtain ⟨first, mid, hfirst, hrun⟩ := exists_of_bind_ok hrun
  cases bytes with
  | nil => cases hfirst
  | cons byte tail =>
    obtain ⟨rfl, rfl⟩ := EStateM.Result.ok.inj hfirst
    dsimp only at hrun
    -- the tail is what `take` finds, all that is left
    have htail : ∀ {width : ℕ} {taken : List UInt8} {after : Cursor},
        Cursor.take width ⟨tail, 0 + 1⟩ = .ok taken after → after.rest = [] →
        taken = tail ∧ tail.length = width := by
      intro width taken after htake hnone
      obtain ⟨hrest, hlength⟩ := take_ok htake
      rw [hnone, List.append_nil] at hrest
      obtain rfl : tail = taken := hrest
      exact ⟨rfl, hlength⟩
    refine ⟨byte, tail, rfl, ?_⟩
    unfold uvarValue
    split at hrun
    · next hones =>
      obtain ⟨taken, after, htake, hvalue⟩ := exists_of_bind_ok hrun
      obtain ⟨rfl, rfl⟩ := EStateM.Result.ok.inj hvalue
      obtain ⟨rfl, hlength⟩ := htail htake rfl
      rw [hlength, if_pos rfl]
      exact ⟨hones, rfl⟩
    · next hones =>
      obtain ⟨number, after, hnumber, hvalue⟩ := exists_of_bind_ok hrun
      obtain ⟨taken, mid, htake, hof⟩ := exists_of_bind_ok hnumber
      obtain ⟨rfl, rfl⟩ := EStateM.Result.ok.inj hvalue
      obtain ⟨rfl, rfl⟩ := EStateM.Result.ok.inj hof
      obtain ⟨rfl, hlength⟩ := htail htake rfl
      rw [hlength, if_neg hones]
      exact ⟨rfl, rfl⟩

/-- A first byte and the bytes behind it carry seven bits each, nine bytes a whole word. -/
theorem uvarValue_lt {first : UInt8} {tail : List UInt8} (h : leadingOnes first = tail.length) :
    uvarValue first tail < 2 ^ (if tail.length = 8 then 64 else 7 * (tail.length + 1)) := by
  have hle := leadingOnes_le first
  have htail := ofNatBytes_lt .big tail
  unfold uvarValue
  split
  · next height =>
    rw [height] at htail
    exact htail
  · next hshort =>
    have hhigh : first.toNat % Nat.pow 2 (7 - tail.length) < 2 ^ (7 - tail.length) :=
      Nat.mod_lt _ (Nat.two_pow_pos _)
    have hpow : 2 ^ (7 - tail.length) * Nat.pow 256 tail.length = 2 ^ (7 * (tail.length + 1)) := by
      change _ * (2 ^ 8) ^ tail.length = _
      rw [← Nat.pow_mul, ← Nat.pow_add]
      congr 1
      omega
    calc _ < first.toNat % Nat.pow 2 (7 - tail.length) * Nat.pow 256 tail.length +
      Nat.pow 256 tail.length :=
          Nat.add_lt_add_left htail _
      _ = (first.toNat % Nat.pow 2 (7 - tail.length) + 1) * Nat.pow 256 tail.length :=
      (Nat.succ_mul _ _).symm
      _ ≤ 2 ^ (7 - tail.length) * Nat.pow 256 tail.length := Nat.mul_le_mul_right _ hhigh
      _ = _ := hpow

/-- A number does not need more bytes than it is read from. -/
theorem uvarLength_uvarValue_le {first : UInt8} {tail : List UInt8}
    (h : leadingOnes first = tail.length) :
    uvarLength (uvarValue first tail) ≤ tail.length + 1 := by
  have hle := leadingOnes_le first
  have hlt := uvarValue_lt h
  by_cases height : tail.length = 8
  · rw [height]
    exact uvarLength_le _
  · rw [if_neg height] at hlt
    exact (uvarLength_le_iff (by omega) (by omega)).2 hlt

/-- If a number needs as many bytes as it is read from, these are the bytes that it is written
in. -/
theorem uvarBytes_uvarValue {first : UInt8} {tail : List UInt8}
    (h : leadingOnes first = tail.length)
    (hlength : uvarLength (uvarValue first tail) = tail.length + 1) :
    uvarBytes (uvarValue first tail) = first :: tail := by
  unfold uvarBytes
  dsimp only
  rw [hlength, Nat.add_sub_cancel]
  have hpos : 0 < Nat.pow 256 tail.length := Nat.pow_pos (by decide)
  have htail := ofNatBytes_lt .big tail
  by_cases height : tail.length = 8
  · have hword : uvarValue first tail = ofNatBytes .big tail := if_pos height
    rw [if_pos height, hword, ← height, natBytes_ofNatBytes,
      eq_of_leadingOnes_eight (h.trans height)]
  · have hle := leadingOnes_le first
    have hvalue : uvarValue first tail =
        first.toNat % Nat.pow 2 (7 - tail.length) * Nat.pow 256 tail.length +
          ofNatBytes .big tail := if_neg height
    -- the high bits are in the first byte, the low ones in the others
    have hhigh : uvarValue first tail / Nat.pow 256 tail.length =
        first.toNat % Nat.pow 2 (7 - tail.length) := by
      rw [hvalue, Nat.mul_comm, Nat.mul_add_div hpos, Nat.div_eq_of_lt htail, Nat.add_zero]
    have hlow : uvarValue first tail % Nat.pow 256 tail.length = ofNatBytes .big tail := by
      rw [hvalue, Nat.mul_comm, Nat.mul_add_mod, Nat.mod_eq_of_lt htail]
    rw [if_neg height, hhigh, first_byte_of_ones h (by omega), UInt8.ofNat_toNat,
      natBytes_eq_of_mod .big hlow]

/-! ### Prefix codes -/

/-- What is read off the front of longer bytes is all that these bytes are read as. -/
theorem eq_of_yields_prefix {x : Reading ℕ} {bytes bytes' : List UInt8} {value value' : ℕ}
    (h : Yields x bytes value) (h' : Yields x bytes' value') (hfront : bytes <+: bytes') :
    bytes = bytes' ∧ value = value' := by
  obtain ⟨more, rfl⟩ := hfront
  have hrun := h more 0
  have hrun' := h' [] 0
  rw [List.append_nil, hrun] at hrun'
  obtain ⟨hvalue, hafter⟩ := EStateM.Result.ok.inj hrun'
  obtain rfl : more = [] := congrArg Cursor.rest hafter
  exact ⟨(List.append_nil _).symm, hvalue⟩

/-- A code of 64-bit words in bytes that is read off the front of the input: a word is read back
from its bytes, whatever follows, greater words do not take fewer bytes, and bytes that are read as
a word are at least as many as those of the word, and no more only if they are those of the word. -/
structure IsShortestPrefixCode (write : ℕ → List UInt8) (count : ℕ → ℕ)
    (read : Reading ℕ) : Prop where
  written : ∀ word : UInt64, Yields read (write word.toNat) word.toNat
  length : ∀ word : UInt64, (write word.toNat).length = count word.toNat
  mono : ∀ a b : UInt64, a ≤ b → count a.toNat ≤ count b.toNat
  taken : ∀ c value after, read c = .ok value after → ∃ bytes, c.rest = bytes ++ after.rest ∧
    after.offset = c.offset + bytes.length ∧ value < 2 ^ 64 ∧ count value ≤ bytes.length ∧
    (bytes.length = count value → bytes = write value)
  unambiguous : ∀ bytes bytes' value value', Yields read bytes value → Yields read bytes' value' →
    bytes <+: bytes' → bytes = bytes' ∧ value = value'

/-! ### Zigzag on words -/

/-- Zigzag by shifts: the sign is turned into the lowest bit, and flips the others. -/
def zigzagWord (value : Int64) : UInt64 := ((value <<< 1) ^^^ (value >>> 63)).toUInt64

/-- The way back: the lowest bit flips the others. -/
def unzigzagWord (code : UInt64) : Int64 := (code >>> 1).toInt64 ^^^ -(code &&& 1).toInt64

/-- Shifting a word right by all its bits but one spreads the sign. -/
theorem sshiftRight_sign (w : BitVec 64) :
    w.sshiftRight 63 = if w.msb then BitVec.allOnes 64 else 0#64 := by
  refine BitVec.eq_of_toNat_eq ?_
  have hlt := w.isLt
  rw [BitVec.toNat_sshiftRight, Nat.shiftRight_eq_div_pow, Nat.shiftRight_eq_div_pow]
  cases hm : w.msb with
  | false =>
    have hsmall := BitVec.msb_eq_false_iff_two_mul_lt.1 hm
    simp only [Bool.false_eq_true, if_false, BitVec.toNat_ofNat]
    omega
  | true =>
    have hlarge := BitVec.msb_eq_true_iff_two_mul_ge.1 hm
    simp only [if_true, BitVec.toNat_allOnes]
    omega

/-- The shifts number the whole numbers as zigzag does. -/
theorem toNat_zigzagWord (value : Int64) : (zigzagWord value).toNat = zigzag value.toInt := by
  have hbits : (zigzagWord value).toBitVec =
      value.toBitVec <<< 1 ^^^ value.toBitVec.sshiftRight 63 := rfl
  have hvalue : value.toInt = value.toBitVec.toInt := rfl
  have hlt := value.toBitVec.isLt
  have hdouble : (value.toBitVec <<< 1).toNat =
      2 * value.toBitVec.toNat % 18446744073709551616 := by
    rw [BitVec.toNat_shiftLeft, Nat.shiftLeft_eq, Nat.mul_comm]
  rw [← UInt64.toNat_toBitVec, hbits, sshiftRight_sign, hvalue, BitVec.toInt_eq_msb_cond]
  unfold zigzag
  cases hm : value.toBitVec.msb with
  | false =>
    have hsmall := BitVec.msb_eq_false_iff_two_mul_lt.1 hm
    simp only [Bool.false_eq_true, if_false, BitVec.xor_zero, hdouble]
    split <;> omega
  | true =>
    have hlarge := BitVec.msb_eq_true_iff_two_mul_ge.1 hm
    simp only [if_true, BitVec.xor_allOnes, BitVec.toNat_not, hdouble]
    split <;> omega

/-- The shifts find the whole number again. -/
theorem toInt_unzigzagWord (code : UInt64) : (unzigzagWord code).toInt = unzigzag code.toNat := by
  have hbits : (unzigzagWord code).toBitVec = code.toBitVec >>> 1 ^^^ -(code.toBitVec &&& 1#64) :=
    rfl
  have hcode : code.toNat = code.toBitVec.toNat := rfl
  have hlt := code.toBitVec.isLt
  have hhalf : (code.toBitVec >>> 1).toNat = code.toBitVec.toNat / 2 := by
    rw [BitVec.toNat_ushiftRight, Nat.shiftRight_eq_div_pow]
  have hlow : (code.toBitVec &&& 1#64).toNat = code.toBitVec.toNat % 2 := by
    rw [BitVec.toNat_and]
    exact Nat.and_one_is_mod _
  have hvalue : (unzigzagWord code).toInt = (unzigzagWord code).toBitVec.toInt := rfl
  rw [hvalue, hbits, hcode]
  unfold unzigzag
  rcases Nat.mod_two_eq_zero_or_one code.toBitVec.toNat with heven | hodd
  · have hzero : code.toBitVec &&& 1#64 = 0#64 := BitVec.eq_of_toNat_eq (hlow.trans heven)
    rw [hzero, BitVec.neg_zero, BitVec.xor_zero, if_pos heven, BitVec.toInt_eq_toNat_cond, hhalf]
    split <;> omega
  · have hone : code.toBitVec &&& 1#64 = 1#64 := BitVec.eq_of_toNat_eq (hlow.trans hodd)
    rw [hone, BitVec.neg_one_eq_allOnes, BitVec.xor_allOnes, if_neg (by omega),
      BitVec.toInt_eq_toNat_cond, BitVec.toNat_not, hhalf]
    split <;> omega

/-! ### The code of all words -/

theorem isShortestPrefixCode_uvar : IsShortestPrefixCode uvarBytes uvarLength Cursor.uvar where
  written := by
    intro word rest offset
    rw [Cursor.uvar_uvarBytes word.toNat_lt, length_uvarBytes]
  length := fun word => length_uvarBytes word.toNat
  mono := fun _ _ hle => uvarLength_mono hle
  taken := by
    intro c value after hrun
    obtain ⟨bytes, hrest, hyields⟩ := takes_uvar c value after hrun
    have hsame := hyields after.rest c.offset
    rw [← hrest, hrun] at hsame
    have hoffset := congrArg Cursor.offset (EStateM.Result.ok.inj hsame).2
    obtain ⟨first, tail, rfl, hones, rfl⟩ := shape_of_yields_uvar hyields
    have hlt := uvarValue_lt hones
    have hle := leadingOnes_le first
    have hword : 2 ^ (if tail.length = 8 then 64 else 7 * (tail.length + 1)) ≤ 2 ^ 64 :=
      Nat.pow_le_pow_right (by decide) (by split <;> omega)
    exact ⟨_, hrest, hoffset, by omega, uvarLength_uvarValue_le hones,
      fun hlength => (uvarBytes_uvarValue hones hlength.symm).symm⟩
  unambiguous := fun _ _ _ _ => eq_of_yields_prefix

/-- **Variable-length integers are an exact, shortest prefix code of all words**, and zigzag, by
shifts of words as well as by the sign, is a bijection between signed and unsigned words. -/
theorem uvar_shortestPrefixCode : IsShortestPrefixCode uvarBytes uvarLength Cursor.uvar ∧
    (∀ value : Int64, unzigzagWord (zigzagWord value) = value ∧
      (zigzagWord value).toNat = zigzag value.toInt) ∧
    ∀ code : UInt64, zigzagWord (unzigzagWord code) = code ∧
      (unzigzagWord code).toInt = unzigzag code.toNat := by
  refine ⟨isShortestPrefixCode_uvar, fun value => ⟨?_, toNat_zigzagWord value⟩,
    fun code => ⟨?_, toInt_unzigzagWord code⟩⟩
  · rw [← Int64.toInt_inj, toInt_unzigzagWord, toNat_zigzagWord, unzigzag_zigzag]
  · rw [← UInt64.toNat_inj, toNat_zigzagWord, toInt_unzigzagWord, zigzag_unzigzag]

end Wireform.Wire
