import Wireform.Proofs.Binary64.Whole
import Wireform.Proofs.Codec.RoundTrip

/-!
# Integers are kept

The value of a JSON number is exact: an integer, or a double times a power of two. A number
whose value is an integer of a type's range is written as that integer and read back as it,
whether it was given as an integer or as a double. Any other number is turned down, with one
exception: the ends of the 64-bit ranges are compared as doubles, where the end itself is not
to be had, and a number whose double is the integer beyond the end is taken for the end.

* `Primitive.hasForm_integer`: what is written.
* `Primitive.outOfRange`: what is turned down.
* `integers_kept`: **both, for all integer types and for runs of bytes**.
* `twoPow64_saturates`: `2 ^ 64` is read back as a different number.
-/

namespace Wireform

/-! ### Exact values -/

namespace Number

open Binary64 (unitsPerOne)

/-- The exact value, times `2 ^ 1074`. -/
def toUnits : Number → ℤ
  | .integer value _ => value * unitsPerOne
  | .float value _ => value.toUnits

/-- The exact value is a given integer. -/
def IsWhole (n : Number) (x : ℤ) : Prop := n.toUnits = x * unitsPerOne

/-- The exact value is an integer from `least` to `greatest`. -/
def Within (n : Number) (least greatest : ℤ) : Prop := ∃ x, n.IsWhole x ∧ least ≤ x ∧ x ≤ greatest

/-- The exact value is beyond the end of a 64-bit range, and as a double it is the first integer
beyond. -/
def Saturates (n : Number) (greatest : ℤ) : Prop :=
  (greatest = 9223372036854775807 ∨ greatest = 18446744073709551615) ∧
    greatest * unitsPerOne < n.toUnits ∧
    n.toBinary64.isWhole = true ∧ n.toBinary64.truncate = greatest + 1

theorem units_lt_iff (x y : ℤ) : x * unitsPerOne < y * unitsPerOne ↔ x < y :=
  Int.mul_lt_mul_right (Int.natCast_pos.2 Binary64.unitsPerOne_pos)

theorem units_inj {x y : ℤ} : x * unitsPerOne = y * unitsPerOne ↔ x = y := by
  have hlt := units_lt_iff x y
  have hgt := units_lt_iff y x
  omega

variable {v : ℤ} {fits : -9223372036854775808 ≤ v ∧ v < 18446744073709551616}

theorem isWhole_integer {x : ℤ} : (Number.integer v fits).IsWhole x ↔ v = x := units_inj

/-- A double without a fraction is the integer that truncating it gives. -/
theorem isWhole_float {x : Binary64} {finite : x.isFinite = true} {k : ℤ} :
    (Number.float x finite).IsWhole k ↔ x.isWhole = true ∧ x.truncate = k :=
  (Binary64.isWhole_iff finite k).symm

theorem saturates_integer {greatest : ℤ} (h : (Number.integer v fits).Saturates greatest) :
    greatest = 9223372036854775807 ∧ greatest < v := by
  obtain ⟨hend, hbeyond, -, -⟩ := h
  have hlt := (units_lt_iff greatest v).1 hbeyond
  omega

theorem saturates_float {x : Binary64} {finite : x.isFinite = true} {greatest : ℤ}
    (hend : greatest = 9223372036854775807 ∨ greatest = 18446744073709551615) :
    (Number.float x finite).Saturates greatest ↔ x.isWhole = true ∧ x.truncate = greatest + 1 := by
  refine ⟨fun h => h.2.2, fun h => ⟨hend, ?_, h⟩⟩
  change greatest * unitsPerOne < x.toUnits
  rw [(Binary64.isWhole_iff finite _).1 h, units_lt_iff]
  omega

end Number

/-! ### Words -/

theorem ofNat_eq_word_iff {k : ℕ} (hk : k < 18446744073709551616) {word : UInt64} :
    UInt64.ofNat k = word ↔ word.toNat = k := by
  have hword : (UInt64.ofNat k).toNat = k := by
    rw [UInt64.toNat_ofNat']
    omega
  rw [← UInt64.toNat_inj, hword]
  exact eq_comm

theorem ofInt_eq_word_iff {k : ℤ} (hlow : -9223372036854775808 ≤ k)
    (hhigh : k < 9223372036854775808) {word : Int64} : Int64.ofInt k = word ↔ word.toInt = k := by
  have hword : (Int64.ofInt k).toInt = k := Int64.toInt_ofInt_of_le (by omega) (by omega)
  rw [← Int64.toInt_inj, hword]
  exact eq_comm

namespace Number

/-- **A double that is tested against a range** gives the word of its integer, and the integer
`beyond` the end of the range gives the word of the end. -/
theorem tested_eq_some_iff {W : Type} {x : Binary64} {least beyond : ℤ} {taken word : W}
    (greatest value : ℤ) (hbeyond : beyond = greatest + 1) (hlow : least ≤ value)
    (hhigh : value ≤ greatest)
    (htaken : least ≤ x.truncate → x.truncate ≤ beyond →
      (taken = word ↔ value = min x.truncate greatest)) :
    (if x.isWhole = true ∧ least ≤ x.truncate ∧ x.truncate ≤ beyond then some taken
      else none) = some word ↔
      (x.isWhole = true ∧ x.truncate = value) ∨ (x.isWhole = true ∧ x.truncate = beyond) ∧
      value = greatest := by
  split
  · next h =>
    rw [Option.some_inj, htaken h.2.1 h.2.2]
    simp only [h.1, true_and]
    omega
  · next h =>
    constructor
    · intro hnone
      cases hnone
    · rintro (⟨hwhole, hexact⟩ | ⟨⟨hwhole, hexact⟩, -⟩)
      · exact absurd ⟨hwhole, by omega, by omega⟩ h
      · exact absurd ⟨hwhole, by omega, by omega⟩ h

/-- **A number as an unsigned word** is its exact value, or else it is taken for the greatest
word. -/
theorem toWord?_eq_some_iff {n : Number} {word : UInt64} : n.toWord? = some word ↔
    n.IsWhole word.toNat ∨ n.Saturates 18446744073709551615 ∧
    word.toNat = 18446744073709551615 := by
  have hword := word.toNat_lt
  cases n with
  | integer v fits =>
    have hnot : ¬(Number.integer v fits).Saturates 18446744073709551615 := fun h => by
      have := saturates_integer h
      omega
    rw [isWhole_integer]
    by_cases hv : 0 ≤ v
    · have hunsigned : (Number.integer v fits).toUnsigned? = some v.toNat := if_pos hv
      unfold toWord?
      rw [hunsigned, Option.some_inj, ofNat_eq_word_iff (by omega)]
      simp only [hnot, false_and, or_false]
      omega
    · have hunsigned : (Number.integer v fits).toUnsigned? = none := if_neg hv
      have hdouble : (Number.integer v fits).toBinary64 = .ofInt v := rfl
      -- a negative number stays negative when it is rounded
      have hcondition : ¬((Binary64.ofInt v).isWhole = true ∧ 0 ≤ (Binary64.ofInt v).truncate ∧
          (Binary64.ofInt v).truncate ≤ 18446744073709551616) := by
        rintro ⟨hwhole, hge, -⟩
        have habs := Binary64.two_pow_le_truncate_ofInt (n := v) (k := 0) (by omega) hwhole
        have hle := Binary64.truncate_ofInt_nonpos (Int.not_le.1 hv)
        omega
      unfold toWord?
      rw [hunsigned, hdouble]
      dsimp only
      rw [if_neg hcondition]
      constructor
      · intro hnone
        cases hnone
      · rintro (hexact | ⟨hsaturates, -⟩)
        · omega
        · exact absurd hsaturates hnot
  | float x finite =>
    have hunsigned : (Number.float x finite).toUnsigned? = none := rfl
    have hdouble : (Number.float x finite).toBinary64 = x := rfl
    rw [isWhole_float, saturates_float (Or.inr rfl)]
    unfold toWord?
    rw [hunsigned, hdouble]
    refine (tested_eq_some_iff 18446744073709551615 word.toNat rfl (by omega) (by omega)
      fun hlow hhigh => ?_).trans ?_
    · rw [ofNat_eq_word_iff (by omega)]
      omega
    · exact or_congr_right (and_congr_right' (by omega))

/-- **A number as a signed word** is its exact value, or else it is taken for the greatest word. -/
theorem toSignedWord?_eq_some_iff {n : Number} {word : Int64} : n.toSignedWord? = some word ↔
    n.IsWhole word.toInt ∨ n.Saturates 9223372036854775807 ∧ word.toInt = 9223372036854775807 := by
  have hlow := word.le_toInt
  have hhigh := word.toInt_lt
  cases n with
  | integer v fits =>
    rw [isWhole_integer]
    by_cases hv : v < 9223372036854775808
    · have hsigned : (Number.integer v fits).toSigned? = some v := if_pos hv
      have hnot : ¬(Number.integer v fits).Saturates 9223372036854775807 := fun h => by
        have := saturates_integer h
        omega
      unfold toSignedWord?
      rw [hsigned, Option.some_inj, ofInt_eq_word_iff (by omega) hv]
      simp only [hnot, false_and, or_false]
      omega
    · have hsigned : (Number.integer v fits).toSigned? = none := if_neg hv
      have hdouble : (Number.integer v fits).toBinary64 = .ofInt v := rfl
      -- a number beyond the end does not fall below it when it is rounded
      have hbeyond : (Binary64.ofInt v).isWhole = true →
          9223372036854775808 ≤ (Binary64.ofInt v).truncate := by
        intro hwhole
        have habs := Binary64.two_pow_le_truncate_ofInt (n := v) (k := 63) (by omega) hwhole
        have hge := Binary64.truncate_ofInt_nonneg (n := v) (by omega)
        omega
      have hsaturates : (Number.integer v fits).Saturates 9223372036854775807 ↔
          (Binary64.ofInt v).isWhole = true ∧
          (Binary64.ofInt v).truncate = 9223372036854775808 := by
        refine ⟨fun h => h.2.2, fun h => ⟨Or.inl rfl, ?_, h⟩⟩
        exact (units_lt_iff _ v).2 (by omega)
      unfold toSignedWord?
      rw [hsigned, hdouble, hsaturates]
      refine (tested_eq_some_iff 9223372036854775807 word.toInt rfl hlow (by omega)
        fun _ _ => ?_).trans ?_
      · exact ofInt_eq_word_iff (by omega) (by omega)
      · refine or_congr_left (iff_of_false ?_ (by omega))
        rintro ⟨hwhole, htruncate⟩
        have hge := hbeyond hwhole
        omega
  | float x finite =>
    have hsigned : (Number.float x finite).toSigned? = none := rfl
    have hdouble : (Number.float x finite).toBinary64 = x := rfl
    rw [isWhole_float, saturates_float (Or.inl rfl)]
    unfold toSignedWord?
    rw [hsigned, hdouble]
    exact tested_eq_some_iff 9223372036854775807 word.toInt rfl hlow (by omega) fun _ _ =>
      ofInt_eq_word_iff (by omega) (by omega)

end Number

/-! ### Integer types -/

namespace Primitive

/-- The least and the greatest value of an integer type. -/
def range? : Primitive → Option (ℤ × ℤ)
  | .uint width _ => some (0, width.words - 1)
  | .int width _ => some (-(width.words / 2 : ℕ), (width.words / 2 : ℕ) - 1)
  | .uvar => some (0, 18446744073709551615)
  | .ivar => some (-9223372036854775808, 9223372036854775807)
  | _ => none

theorem least_le_greatest {p : Primitive} {least greatest : ℤ}
    (hp : p.range? = some (least, greatest)) :
    least ≤ greatest := by
  cases p with
  | uint width order | int width order =>
    obtain ⟨rfl, rfl⟩ := Prod.mk.inj (Option.some.inj hp)
    cases width <;> decide
  | uvar | ivar =>
    obtain ⟨rfl, rfl⟩ := Prod.mk.inj (Option.some.inj hp)
    decide
  | single | double | bool | string | json | date => cases hp

theorem words_le (width : Width) : width.words ≤ 18446744073709551616 := by
  cases width <;> decide

/-- Only the ranges of 64 bits end where numbers can be taken for the end. -/
theorem end_of_words {width : Width}
    (h : (width.words : ℤ) - 1 = 9223372036854775807 ∨
      (width.words : ℤ) - 1 = 18446744073709551615) :
    width.words = 18446744073709551616 := by
  revert h
  cases width <;> decide

theorem end_of_half {width : Width}
    (h : ((width.words / 2 : ℕ) : ℤ) - 1 = 9223372036854775807 ∨
      ((width.words / 2 : ℕ) : ℤ) - 1 = 18446744073709551615) :
    width.words / 2 = 9223372036854775808 := by
  revert h
  cases width <;> decide

variable {n : Number} {least greatest x : ℤ}

theorem unsignedWord_of_some {σ : Type} (type : String) {word : UInt64}
    (h : n.toWord? = some word) :
    unsignedWord (σ := σ) type (.number n) = pure word := by
  simp only [unsignedWord, h]

theorem unsignedWord_of_none {σ : Type} (type : String) (h : n.toWord? = none) :
    unsignedWord (σ := σ) type (.number n) = failWith (.outOfRange n type) := by
  simp only [unsignedWord, h]

theorem signedWord_of_some {σ : Type} (type : String) {word : Int64}
    (h : n.toSignedWord? = some word) :
    signedWord (σ := σ) type (.number n) = pure word := by
  simp only [signedWord, h]

theorem signedWord_of_none {σ : Type} (type : String) (h : n.toSignedWord? = none) :
    signedWord (σ := σ) type (.number n) = failWith (.outOfRange n type) := by
  simp only [signedWord, h]

/-- The word of an integer in the range, or of the number that is taken for its end. -/
theorem toWord?_of_whole (hlow : 0 ≤ x) (hhigh : x < 18446744073709551616)
    (h : n.IsWhole x ∨ n.Saturates 18446744073709551615 ∧ x = 18446744073709551615) :
    n.toWord? = some (UInt64.ofNat x.toNat) := by
  have hword : ((UInt64.ofNat x.toNat).toNat : ℤ) = x := by
    rw [UInt64.toNat_ofNat']
    omega
  refine Number.toWord?_eq_some_iff.2 ?_
  rw [hword]
  refine h.imp_right fun ⟨hsaturates, hend⟩ => ⟨hsaturates, ?_⟩
  omega

theorem toSignedWord?_of_whole (hlow : -9223372036854775808 ≤ x) (hhigh : x < 9223372036854775808)
    (h : n.IsWhole x ∨ n.Saturates 9223372036854775807 ∧ x = 9223372036854775807) :
    n.toSignedWord? = some (Int64.ofInt x) := by
  have hword : (Int64.ofInt x).toInt = x := Int64.toInt_ofInt_of_le (by omega) (by omega)
  refine Number.toSignedWord?_eq_some_iff.2 ?_
  rw [hword]
  exact h

/-- **An integer of the range is written as itself**, and a number that is taken for the end of the
range as the end. -/
theorem hasForm_integer {p : Primitive} (hp : p.range? = some (least, greatest)) (hlow : least ≤ x)
    (hhigh : x ≤ greatest) (h : n.IsWhole x ∨ n.Saturates greatest ∧ x = greatest) :
    ∃ fits, p.HasForm (.number n) (.number (.integer x fits)) := by
  -- the encoder sees a number through its word only
  cases p with
  | uint width order =>
    obtain ⟨rfl, rfl⟩ := Prod.mk.inj (Option.some.inj hp)
    have hwords := words_le width
    have hword := toWord?_of_whole hlow (by omega) <| h.imp_right fun hends => by
      obtain ⟨hsaturates, hend⟩ := hends
      have hwide := end_of_words hsaturates.1
      rw [hwide] at hsaturates hend
      exact ⟨hsaturates, hend⟩
    refine ⟨⟨by omega, by omega⟩, ⟨x, _, rfl, hlow, by omega⟩, ?_⟩
    simp only [encode]
    rw [unsignedWord_of_some _ hword, unsignedWord_integer _ hlow]
  | int width order =>
    obtain ⟨rfl, rfl⟩ := Prod.mk.inj (Option.some.inj hp)
    have hhalf := half_le width
    have hword := toSignedWord?_of_whole (by omega) (by omega) <| h.imp_right fun hends => by
      obtain ⟨hsaturates, hend⟩ := hends
      have hwide := end_of_half hsaturates.1
      rw [hwide] at hsaturates hend
      exact ⟨hsaturates, hend⟩
    refine ⟨⟨by omega, by omega⟩, ⟨x, _, rfl, hlow, by omega⟩, ?_⟩
    simp only [encode]
    rw [signedWord_of_some _ hword, signedWord_integer _ (by omega)]
  | uvar =>
    obtain ⟨rfl, rfl⟩ := Prod.mk.inj (Option.some.inj hp)
    have hword := toWord?_of_whole hlow (by omega) h
    refine ⟨⟨by omega, by omega⟩, ⟨x, _, rfl, hlow⟩, ?_⟩
    simp only [encode]
    rw [unsignedWord_of_some _ hword, unsignedWord_integer _ hlow]
  | ivar =>
    obtain ⟨rfl, rfl⟩ := Prod.mk.inj (Option.some.inj hp)
    have hword := toSignedWord?_of_whole hlow (by omega) h
    refine ⟨⟨by omega, by omega⟩, ⟨x, _, rfl, by omega⟩, ?_⟩
    simp only [encode]
    rw [signedWord_of_some _ hword, signedWord_integer _ (by omega)]
  | single | double | bool | string | json | date => cases hp

/-- The word of a number that is not in a range is not either. -/
theorem lt_word_of_not_within {word : UInt64} (hword : n.toWord? = some word)
    (hrange : ¬n.Within 0 greatest) (hend : ¬n.Saturates greatest)
    (hgreatest : greatest ≤ 18446744073709551615) : greatest < word.toNat := by
  by_contra hle
  rcases Number.toWord?_eq_some_iff.1 hword with hwhole | ⟨hsaturates, hlast⟩
  · exact hrange ⟨_, hwhole, Int.natCast_nonneg _, Int.not_lt.1 hle⟩
  · -- a range that ends below the greatest word does not hold it
    obtain rfl : greatest = 18446744073709551615 := by omega
    exact hend hsaturates

theorem lt_signedWord_of_not_within {word : Int64} (hword : n.toSignedWord? = some word)
    (hrange : ¬n.Within least greatest) (hend : ¬n.Saturates greatest)
    (hgreatest : greatest ≤ 9223372036854775807) (hlow : least ≤ word.toInt) :
    greatest < word.toInt := by
  by_contra hle
  rcases Number.toSignedWord?_eq_some_iff.1 hword with hwhole | ⟨hsaturates, hlast⟩
  · exact hrange ⟨_, hwhole, hlow, Int.not_lt.1 hle⟩
  · obtain rfl : greatest = 9223372036854775807 := by omega
    exact hend hsaturates

/-- **Any other number is turned down** as out of range, and nothing is written. -/
theorem outOfRange {p : Primitive} (hp : p.range? = some (least, greatest))
    (hrange : ¬n.Within least greatest) (hend : ¬n.Saturates greatest) (buffer : Array UInt8) :
    ∃ shown,
      p.encode (.number n) buffer = .error (.failure ⟨[], .outOfRange shown p.label⟩) buffer := by
  cases p with
  | uint width order =>
    obtain ⟨rfl, rfl⟩ := Prod.mk.inj (Option.some.inj hp)
    cases hword : n.toWord? with
    | none => exact ⟨n, bind_of_error (by rw [unsignedWord_of_none _ hword]; rfl)⟩
    | some word =>
      have hwords := words_le width
      have hlarge := lt_word_of_not_within hword hrange hend (by omega)
      refine ⟨.ofUInt64 word, ?_⟩
      refine (bind_of_ok (by rw [unsignedWord_of_some _ hword]; rfl)).trans ?_
      rw [if_neg (by omega)]
      rfl
  | int width order =>
    obtain ⟨rfl, rfl⟩ := Prod.mk.inj (Option.some.inj hp)
    cases hword : n.toSignedWord? with
    | none => exact ⟨n, bind_of_error (by rw [signedWord_of_none _ hword]; rfl)⟩
    | some word =>
      have hhalf := half_le width
      have hlarge := lt_signedWord_of_not_within hword hrange hend (by omega)
      refine ⟨.ofInt64 word, ?_⟩
      refine (bind_of_ok (by rw [signedWord_of_some _ hword]; rfl)).trans ?_
      rw [if_neg (by omega)]
      rfl
  | uvar =>
    obtain ⟨rfl, rfl⟩ := Prod.mk.inj (Option.some.inj hp)
    cases hword : n.toWord? with
    | none => exact ⟨n, bind_of_error (by rw [unsignedWord_of_none _ hword]; rfl)⟩
    | some word =>
      -- the range is that of the words
      have hlarge := lt_word_of_not_within hword hrange hend (Int.le_refl _)
      have hlt := word.toNat_lt
      omega
  | ivar =>
    obtain ⟨rfl, rfl⟩ := Prod.mk.inj (Option.some.inj hp)
    cases hword : n.toSignedWord? with
    | none => exact ⟨n, bind_of_error (by rw [signedWord_of_none _ hword]; rfl)⟩
    | some word =>
      have hlarge := lt_signedWord_of_not_within hword hrange hend (Int.le_refl _) word.le_toInt
      have hlt := word.toInt_lt
      omega
  | single | double | bool | string | json | date => cases hp

end Primitive

/-! ### Runs of bytes -/

namespace Codec

variable {n : Number}

theorem byteForm_within {x : ℤ} (hwhole : n.IsWhole x) (hlow : 0 ≤ x) (hhigh : x ≤ 255) :
    ∃ fits, ByteForm (.number n) (.number (.integer x fits)) := by
  have fits : -9223372036854775808 ≤ x ∧ x < 18446744073709551616 := ⟨by omega, by omega⟩
  have hbyte : (UInt8.ofNat x.toNat).toUInt64 = UInt64.ofNat x.toNat := by
    rw [← UInt64.toNat_inj, UInt8.toNat_toUInt64, UInt8.toNat_ofNat', UInt64.toNat_ofNat']
    omega
  refine ⟨fits, UInt8.ofNat x.toNat, ?_, ?_⟩
  · rw [hbyte, Json.ofUInt64_integer fits hlow]
  · have hword := Primitive.toWord?_of_whole hlow (by omega) (Or.inl hwhole)
    unfold encodeByte
    rw [Primitive.unsignedWord_of_some _ hword, Primitive.unsignedWord_integer _ hlow]

/-- A number that is no byte is turned down. -/
theorem encodeByte_outOfRange (hrange : ¬n.Within 0 255) (buffer : Array UInt8) : ∃ shown,
    encodeByte (.number n) buffer = .error (.failure ⟨[], .outOfRange shown "byte"⟩) buffer := by
  cases hword : n.toWord? with
  | none => exact ⟨n, bind_of_error (by rw [Primitive.unsignedWord_of_none _ hword]; rfl)⟩
  | some word =>
    -- the end of this range is not one that numbers are taken for
    have hend : ¬n.Saturates 255 := fun h => absurd h.1 (by decide)
    have hlarge := Primitive.lt_word_of_not_within hword hrange hend (by decide)
    refine ⟨.ofUInt64 word, ?_⟩
    refine (bind_of_ok (by rw [Primitive.unsignedWord_of_some _ hword]; rfl)).trans ?_
    rw [if_neg (by omega)]
    rfl

/-- Bytes before the first number that is none are written; at that number encoding stops. -/
theorem encodeItems_outOfRange {ns : List Number} (h : ¬∀ n ∈ ns, n.Within 0 255) (first : ℕ)
    (buffer : Array UInt8) :
    ∃ position shown after, encodeItems encodeByte first (ns.map .number) buffer =
      .error (.failure ⟨[.index position], .outOfRange shown "byte"⟩) after := by
  induction ns generalizing first buffer with
  | nil => exact absurd (fun n hn => nomatch hn) h
  | cons n rest ih =>
    by_cases hn : n.Within 0 255
    · have hrest : ¬∀ other ∈ rest, other.Within 0 255 := fun hall =>
        h fun other ho => (List.mem_cons.1 ho).elim (fun heq => heq ▸ hn) (hall other)
      obtain ⟨x, hwhole, hlow, hhigh⟩ := hn
      obtain ⟨fits, byte, hsame, hencode⟩ := byteForm_within hwhole hlow hhigh
      have hbyte := emits_encodeByte byte
      rw [← hsame, ← hencode] at hbyte
      obtain ⟨position, shown, after, hfail⟩ := ih hrest (first + 1) (buffer ++ [byte].toArray)
      refine ⟨position, shown, after, ?_⟩
      exact (bind_of_ok (hbyte.inside (.index first) buffer)).trans hfail
    · obtain ⟨shown, hfail⟩ := encodeByte_outOfRange hn buffer
      exact ⟨first, shown, buffer, bind_of_error (inside_of_failure (.index first) hfail)⟩

/-- Numbers that are bytes have forms with the same exact values. -/
theorem byteForms_within {ns : List Number} (h : ∀ n ∈ ns, n.Within 0 255) : ∃ found : List Number,
    List.Forall₂ ByteForm (ns.map Json.number) (found.map Json.number) ∧
      found.map Number.toUnits = ns.map Number.toUnits := by
  induction ns with
  | nil => exact ⟨[], .nil, rfl⟩
  | cons n rest ih =>
    obtain ⟨found, hforms, hunits⟩ := ih fun other ho => h other (List.mem_cons_of_mem _ ho)
    obtain ⟨x, hwhole, hlow, hhigh⟩ := h n List.mem_cons_self
    obtain ⟨fits, hform⟩ := byteForm_within hwhole hlow hhigh
    exact ⟨.integer x fits :: found, .cons hform hforms, congrArg₂ List.cons hwhole.symm hunits⟩

end Codec

open Codec in
/-- **Integers are kept.** A number in the range of an integer type comes back with the same exact
value, and a number that saturates comes back as the end of the range; any other is turned down.
So are numbers that are to be bytes, none of which saturates. -/
theorem integers_kept {p : Primitive} {least greatest : ℤ}
    (hp : p.range? = some (least, greatest)) (n : Number) (decode : Decoder) (minSize : TypeId → ℕ)
    (ns : List Number) :
    ((n.Within least greatest → ∃ found : Number,
        Trips (p.encode (.number n)) p.decode (.number found) ∧ found.toUnits = n.toUnits) ∧
      (n.Saturates greatest → ∃ found : Number,
        Trips (p.encode (.number n)) p.decode (.number found) ∧ found.IsWhole greatest) ∧
      (¬n.Within least greatest → ¬n.Saturates greatest → ∀ buffer, ∃ shown,
        p.encode (.number n) buffer = .error (.failure ⟨[], .outOfRange shown p.label⟩) buffer)) ∧
    ((∀ n ∈ ns, n.Within 0 255) → ∃ found : List Number,
        Trips (encodeBytes ns.length (.array (ns.map .number)))
          (decodeStep decode minSize (.bytes ns.length)) (.array (found.map .number)) ∧
        found.map Number.toUnits = ns.map Number.toUnits) ∧
      ((¬∀ n ∈ ns, n.Within 0 255) → ∀ buffer, ∃ position shown after,
        encodeBytes ns.length (.array (ns.map .number)) buffer =
          .error (.failure ⟨[.index position], .outOfRange shown "byte"⟩) after) := by
  have hlength : (ns.map Json.number).length = ns.length := List.length_map _
  refine ⟨⟨?_, ?_, Primitive.outOfRange hp⟩, ?_, ?_⟩
  · rintro ⟨x, hwhole, hlow, hhigh⟩
    obtain ⟨fits, hform⟩ := Primitive.hasForm_integer hp hlow hhigh (Or.inl hwhole)
    exact ⟨.integer x fits, trips_primitive hform, hwhole.symm⟩
  · intro hsaturates
    have hlow := Primitive.least_le_greatest hp
    obtain ⟨fits, hform⟩ := Primitive.hasForm_integer hp hlow le_rfl (Or.inr ⟨hsaturates, rfl⟩)
    exact ⟨.integer greatest fits, trips_primitive hform, rfl⟩
  · intro hall
    obtain ⟨found, hforms, hunits⟩ := byteForms_within hall
    exact ⟨found, trips_bytes ⟨_, _, rfl, rfl, hlength, hforms⟩, hunits⟩
  · intro hnot buffer
    obtain ⟨position, shown, after, hfail⟩ := encodeItems_outOfRange hnot 0 buffer
    have hcheck : checkLength ns.length (ns.map Json.number) = pure () := if_pos hlength
    refine ⟨position, shown, after, ?_⟩
    unfold encodeBytes
    rw [arrayItems, pure_bind, hcheck, pure_bind]
    exact hfail

/-- The double `-7.0`. -/
def minusSeven : Number := .float ⟨0xC01C000000000000⟩ (by decide)

theorem minusSeven_kept : minusSeven.Within (-128) 127 ∧ ∃ found : Number,
    Trips ((Primitive.int .w8 .big).encode (.number minusSeven)) (Primitive.int .w8 .big).decode
      (.number found) ∧ found.toUnits = minusSeven.toUnits := by
  have hwithin : minusSeven.Within (-128) 127 :=
    ⟨-7, Number.isWhole_float.2 (by decide +kernel), by decide, by decide⟩
  have hrange : (Primitive.int .w8 .big).range? = some (-128, 127) := rfl
  exact ⟨hwithin,
    (integers_kept hrange minusSeven (fun _ => failWith .invalidJson) (fun _ => 0) []).1.1 hwithin⟩

/-- The double `2 ^ 64`. -/
def twoPow64 : Number := .float ⟨0x43F0000000000000⟩ (by decide)

/-- `2 ^ 64` is no 64-bit word, but is written, and is read back as the greatest one. -/
theorem twoPow64_saturates : ¬twoPow64.Within 0 18446744073709551615 ∧
    ∃ found : Number, Trips ((Primitive.uint .w64 .big).encode (.number twoPow64))
      (Primitive.uint .w64 .big).decode (.number found) ∧ found.IsWhole 18446744073709551615 := by
  have hwhole : twoPow64.IsWhole 18446744073709551616 := Number.isWhole_float.2 (by decide +kernel)
  refine ⟨?_, ?_⟩
  · rintro ⟨x, hx, -, hle⟩
    have heq : (18446744073709551616 : ℤ) = x := Number.units_inj.1 (hwhole.symm.trans hx)
    omega
  · have hsaturates : twoPow64.Saturates 18446744073709551615 :=
      (Number.saturates_float (Or.inr rfl)).2 (by decide +kernel)
    have hrange : (Primitive.uint .w64 .big).range? = some (0, 18446744073709551615) := rfl
    obtain ⟨fits, hform⟩ :=
      Primitive.hasForm_integer hrange (by decide) le_rfl (Or.inr ⟨hsaturates, rfl⟩)
    exact ⟨_, Codec.trips_primitive hform, rfl⟩

end Wireform
