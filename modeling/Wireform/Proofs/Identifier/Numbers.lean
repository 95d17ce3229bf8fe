import Wireform.Identifier.Canonical
import Wireform.Proofs.Binary64.Equality
import Wireform.Proofs.Binary64.Whole
import Wireform.Proofs.Json.Numbers

/-!
# Numbers in canonical text

A number is read back from its canonical text, but for the sign of a zero and the bits of a NaN,
which the text does not tell. So the text tells numbers apart as comparing them does, except
that all NaNs are the same.

* `Binary64.settled`: what the text of a number tells.
* `Binary64.settled_eq_iff`: which numbers are settled alike.
* `ofText?_text`: a number is read back.
-/

namespace Wireform

open FloatFormat (double)

/-! ### What the text of a number tells -/

/-- A number without the sign of a zero and the bits of a NaN. -/
def Binary64.settled (x : Binary64) : Binary64 :=
  if x.isNaN then .nan else if x.isZero then .zero false else x

namespace Binary64

variable {x y : Binary64}

theorem eq_of_magnitude (hsign : x.isNegative = y.isNegative)
    (h : x.magnitude = y.magnitude) : x = y := by
  rw [← Decimal.ofMagnitude_magnitude x, ← Decimal.ofMagnitude_magnitude y, hsign, h]

theorem rank_eq_zero : x.rank = 0 ↔ x.isZero = true := by
  rw [isZero, decide_eq_true_iff, rank]
  split <;> omega

/-- Numbers other than zero are known by their place. -/
theorem rank_inj (hx : x.isZero = false) (h : x.rank = y.rank) : x = y := by
  have hpos : x.magnitude ≠ 0 := of_decide_eq_false hx
  have hsign : x.isNegative = y.isNegative := by
    unfold rank at h
    cases hneg : x.isNegative <;> cases hneg' : y.isNegative <;>
      simp only [hneg, hneg', if_true, Bool.false_eq_true, if_false] at h <;>
      first | rfl | omega
  refine eq_of_magnitude hsign ?_
  unfold rank at h
  rw [hsign] at h
  split at h <;> omega

theorem isNaN_nan : nan.isNaN = true := by decide +kernel

theorem isNaN_zero : (zero false).isNaN = false := by decide +kernel

theorem isZero_zero : (zero false).isZero = true := by decide +kernel

theorem settled_of_isNaN (h : x.isNaN = true) : x.settled = nan := if_pos h

theorem settled_of_not_isNaN (h : x.isNaN = false) :
    x.settled = if x.isZero then zero false else x :=
  if_neg (Bool.eq_false_iff.1 h)

theorem isNaN_settled : x.settled.isNaN = x.isNaN := by
  cases h : x.isNaN with
  | true => rw [settled_of_isNaN h, isNaN_nan]
  | false =>
    rw [settled_of_not_isNaN h]
    split
    · exact isNaN_zero
    · exact h

/-- Settling keeps the place of a number. -/
theorem rank_settled (h : x.isNaN = false) : x.settled.rank = x.rank := by
  rw [settled_of_not_isNaN h]
  split
  · next hzero => rw [rank_eq_zero.2 hzero, rank_eq_zero.2 isZero_zero]
  · rfl

/-- **Numbers are settled alike** if they are equal or both of them are NaN. -/
theorem settled_eq_iff : x.settled = y.settled ↔
    x.isNaN = true ∧ y.isNaN = true ∨ x.eq y = true := by
  constructor
  · intro h
    have hsame : x.isNaN = y.isNaN := by rw [← isNaN_settled, h, isNaN_settled]
    cases hx : x.isNaN with
    | true => exact Or.inl ⟨rfl, hsame ▸ hx⟩
    | false =>
      have hy : y.isNaN = false := hsame ▸ hx
      have hrank : x.rank = y.rank := by rw [← rank_settled hx, h, rank_settled hy]
      exact Or.inr (by simp [eq, hx, hy, hrank])
  · rintro (⟨hx, hy⟩ | h)
    · rw [settled_of_isNaN hx, settled_of_isNaN hy]
    · simp only [eq, Bool.and_eq_true, Bool.not_eq_true', decide_eq_true_eq] at h
      obtain ⟨⟨hx, hy⟩, hrank⟩ := h
      rw [settled_of_not_isNaN hx, settled_of_not_isNaN hy]
      have hzero : x.isZero = y.isZero := by
        rw [Bool.eq_iff_iff, ← rank_eq_zero, ← rank_eq_zero, hrank]
      rw [← hzero]
      split
      · rfl
      · next hne => exact rank_inj (Bool.eq_false_iff.2 hne) hrank

end Binary64

/-! ### Reading back -/

/-- A sign in front of a text. -/
def signed (negative : Bool) (text : List Char) : List Char :=
  (if negative then ['-'] else []) ++ text

theorem toLower_of_isDigit {c : Char} (h : c.isDigit = true) : c.toLower = c := by
  rw [Char.isDigit, Bool.and_eq_true, decide_eq_true_iff, decide_eq_true_iff] at h
  unfold Char.toLower
  refine dif_neg fun hupper => ?_
  have hupper : 65 ≤ c.val.toNat := hupper.1
  have hdigit : c.val.toNat ≤ 57 := h.2
  omega

namespace Spelled

/-- Digits, perhaps with a point and a sign. -/
theorem ofText?_pointed (negative : Bool) {whole fraction : List Char}
    (hwhole : ∀ c ∈ whole, c.isDigit = true) (hne : whole ≠ [])
    (hfraction : ∀ c ∈ fraction, c.isDigit = true) :
    ofText? (String.ofList (signed negative (Json.pointed whole fraction))) =
      some (negative, .finite (.ofParts whole fraction 0)) := by
  obtain ⟨c, more, rfl⟩ := List.exists_cons_of_ne_nil hne
  have hc : c.isDigit = true := hwhole c List.mem_cons_self
  have hminus : c ≠ '-' := by rintro rfl; cases hc
  have hplus : c ≠ '+' := by rintro rfl; cases hc
  have hword : ∀ (first : Char) (others : List Char), first.isDigit = false →
      String.ofList ((Json.pointed (c :: more) fraction).map Char.toLower) ≠
      String.ofList (first :: others) := by
    intro first others hfirst heq
    have hhead := congrArg (fun text => text.toList.head?) heq
    simp only [Json.pointed, List.cons_append, List.map_cons, String.toList_ofList, List.head?_cons,
      toLower_of_isDigit hc, Option.some.injEq] at hhead
    rw [hhead, hfirst] at hc
    cases hc
  have hdigits : takeDigits (Json.pointed (c :: more) fraction) =
      (c :: more, if fraction = [] then [] else '.' :: fraction) := by
    refine takeDigits_append hwhole fun first hfirst => ?_
    split at hfirst
    · cases hfirst
    · obtain rfl := Option.some.inj hfirst
      rfl
  unfold ofText? signed
  rw [String.toList_ofList]
  split
  next negative' body heq =>
  -- the sign is taken off, and then a digit stands in front
  obtain ⟨rfl, rfl⟩ : negative' = negative ∧ body = Json.pointed (c :: more) fraction := by
    cases negative with
    | true =>
      obtain ⟨rfl, rfl⟩ := Prod.mk.inj heq
      exact ⟨rfl, rfl⟩
    | false =>
      simp only [Bool.false_eq_true, if_false, List.nil_append, Json.pointed,
        List.cons_append] at heq
      split at heq
      · next hcons => exact absurd (List.cons.inj hcons).1 hminus
      · next hcons => exact absurd (List.cons.inj hcons).1 hplus
      · obtain ⟨rfl, rfl⟩ := Prod.mk.inj heq
        exact ⟨rfl, rfl⟩
  have hinf : ¬(String.ofList ((Json.pointed (c :: more) fraction).map Char.toLower) = "inf" ∨
      String.ofList ((Json.pointed (c :: more) fraction).map Char.toLower) = "infinity") := by
    rintro (heq | heq)
    · exact hword 'i' ['n', 'f'] rfl heq
    · exact hword 'i' ['n', 'f', 'i', 'n', 'i', 't', 'y'] rfl heq
  dsimp only
  rw [if_neg hinf, if_neg (hword 'n' ['a', 'n'] rfl), hdigits]
  by_cases hnone : fraction = []
  · subst hnone
    rfl
  · have htake := @takeDigits_append _ [] hfraction fun _ hc => absurd hc (Option.not_mem_none _)
    rw [List.append_nil] at htake
    rw [if_neg hnone]
    simp only [htake]
    rfl

end Spelled

open Decimal

theorem isFinite_of_isWhole {x : Binary64} (h : x.isWhole = true) : x.isFinite = true :=
  ((Bool.and_eq_true _ _).mp h).1

/-- The digits of a whole number read back. -/
theorem nearestWord_whole {x : Binary64} (hwhole : x.isWhole = true)
    (hsmall : x.truncate.natAbs < 9000000000000000) :
    nearestWord double ⟨x.truncate.natAbs, 0⟩ = x.magnitude := by
  have hfinite : x.isFinite = true := isFinite_of_isWhole hwhole
  have htotal := (Binary64.isWhole_iff hfinite x.truncate).1 ⟨hwhole, rfl⟩
  have hunits : x.units = x.truncate.natAbs * 2 ^ double.unitScale := by
    have habs := congrArg Int.natAbs htotal
    rwa [Binary64.natAbs_toUnits, Int.natAbs_mul, Int.natAbs_natCast,
      Binary64.unitsPerOne_eq] at habs
  have hback : double.nearest (x.units * 1) 1 = x.magnitude :=
    double.nearest_units (of_decide_eq_true hfinite) Nat.one_pos
  rw [← hback, hunits]
  generalize x.truncate.natAbs = n at *
  rcases Nat.eq_zero_or_pos n with rfl | hpos
  · rw [Nat.zero_mul]
    rfl
  · have hcount : digitCount n ≤ 16 := (digitCount_le_iff (by decide)).2 (by omega)
    have hleading : leadingExponent ⟨n, 0⟩ = (digitCount n : Int) + 0 - 1 := rfl
    rw [nearestWord, if_neg (Nat.ne_of_gt hpos), if_neg (by omega), if_neg (by omega)]
    -- the power is not to be computed
    generalize double.unitScale = k
    change double.nearest (n * 1 * 2 ^ k) 1 = double.nearest (n * 2 ^ k * 1) 1
    rw [Nat.mul_one, Nat.mul_one]

theorem chars_number (x : Binary64) : (Constant.number x).chars =
    if x.isWhole && x.truncate.natAbs < 9000000000000000 then
      signed (x.truncate < 0) (digitChars x.truncate.natAbs)
    else plainStyle.chars x := by
  simp only [Constant.chars, signed, decide_eq_true_eq]

theorem units_of_magnitude {x : Binary64} (h : x.magnitude = 0) : x.units = 0 := by
  rw [Binary64.units, h]
  rfl

theorem truncate_of_magnitude {x : Binary64} (h : x.magnitude = 0) : x.truncate = 0 := by
  rw [Binary64.truncate, units_of_magnitude h, Nat.zero_div]
  exact ite_self 0

theorem isZero_of_truncate {x : Binary64} (hwhole : x.isWhole = true) (h : x.truncate = 0) :
    x.isZero = true := by
  have hback := nearestWord_whole hwhole (by rw [h]; decide)
  rw [h] at hback
  exact decide_eq_true hback.symm

/-- A number is written `NaN`, or `inf` or digits behind a sign. The digits read back. -/
inductive NumberText : Binary64 → List Char → Prop
  | nan {x : Binary64} (h : x.isNaN = true) : NumberText x "NaN".toList
  | infinite (negative : Bool) : NumberText (.infinity negative) (signed negative "inf".toList)
  | digits {x : Binary64} (negative : Bool) {whole fraction : List Char}
      (hwhole : ∀ c ∈ whole, c.isDigit = true) (hne : whole ≠ [])
      (hfraction : ∀ c ∈ fraction, c.isDigit = true)
      (hvalue : (Decimal.ofParts whole fraction 0).nearest negative = x.settled) :
      NumberText x (signed negative (Json.pointed whole fraction))

/-- A whole number below `9e15` is written without a point. -/
theorem numberText_whole {x : Binary64} (hwhole : x.isWhole = true)
    (hsmall : x.truncate.natAbs < 9000000000000000) :
    NumberText x (signed (x.truncate < 0) (digitChars x.truncate.natAbs)) := by
  have hnan := Binary64.isNaN_eq_false (isFinite_of_isWhole hwhole)
  have hparts : Decimal.ofParts (digitChars x.truncate.natAbs) [] 0 = ⟨x.truncate.natAbs, 0⟩ := by
    rw [Decimal.ofParts, List.append_nil, ofDigits_digitChars]
    rfl
  rw [← Json.pointed_nil (digitChars x.truncate.natAbs)]
  refine .digits _ (isDigit_digitChars _) (Json.digitChars_ne_nil _) (List.forall_mem_nil _) ?_
  rw [hparts, Decimal.nearest, nearestWord_whole hwhole hsmall, Binary64.settled_of_not_isNaN hnan]
  by_cases htruncate : x.truncate = 0
  · have hzero := isZero_of_truncate hwhole htruncate
    have hmagnitude : x.magnitude = 0 := of_decide_eq_true hzero
    rw [if_pos hzero, hmagnitude, htruncate]
    rfl
  · have hzero : ¬x.isZero = true :=
      fun hzero => htruncate (truncate_of_magnitude (of_decide_eq_true hzero))
    have hsign : decide (x.truncate < 0) = x.isNegative := by
      unfold Binary64.truncate at htruncate ⊢
      generalize x.units / Binary64.unitsPerOne = n at *
      cases hnegative : x.isNegative
        <;> simp only [hnegative, if_true, Bool.false_eq_true, if_false] at htruncate ⊢
      · exact decide_eq_false (by omega)
      · exact decide_eq_true (by omega)
    rw [if_neg hzero, hsign, ofMagnitude_magnitude]

/-- Any other number is written with the fewest digits that read back. -/
theorem numberText_plain {x : Binary64} (hzero : ¬x.isZero = true) :
    NumberText x (plainStyle.chars x) := by
  have hsign : ∀ body : List Char, (if x.isNegative then '-' :: body else body) =
      signed x.isNegative body := by
    intro body
    cases x.isNegative <;> rfl
  unfold Style.chars
  split
  · next hnan => exact .nan hnan
  next hnan =>
  dsimp only
  rw [hsign]
  split
  · next hinfinite =>
    have hmagnitude : x.magnitude = double.infinity := of_decide_eq_true hinfinite
    have hx : .infinity x.isNegative = x := by
      rw [Binary64.infinity, ← hmagnitude, ofMagnitude_magnitude]
    have htext := NumberText.infinite x.isNegative
    rwa [hx] at htext
  · next hinfinite =>
    have hfinite : x.isFinite = true := by
      have hle : ¬double.infinity < x.magnitude := fun hlt => hnan (decide_eq_true hlt)
      have hne : x.magnitude ≠ double.infinity := fun heq => hinfinite (decide_eq_true heq)
      exact decide_eq_true (by omega)
    obtain ⟨whole, fraction, htext, h, -⟩ :=
      Json.exists_positional double (exponent_shortest .up hfinite) false
    have hmagnitude : plainStyle.magnitudeChars x = Json.pointed whole fraction := htext
    rw [hmagnitude]
    refine .digits _ h.whole_digits h.whole_ne_nil h.fraction_digits ?_
    rw [Decimal.nearest, h.value, nearestWord_shortest .up hfinite, ofMagnitude_magnitude,
      Binary64.settled_of_not_isNaN (Binary64.isNaN_eq_false hfinite), if_neg hzero]

/-- **Any number** is written so. -/
theorem numberText (x : Binary64) : NumberText x (Constant.number x).chars := by
  rw [chars_number]
  split
  · next hsmall =>
    obtain ⟨hwhole, hsmall⟩ := (Bool.and_eq_true _ _).mp hsmall
    exact numberText_whole hwhole (of_decide_eq_true hsmall)
  · next hlarge =>
    -- zero is a whole number
    refine numberText_plain fun hzero => hlarge ?_
    have hmagnitude : x.magnitude = 0 := of_decide_eq_true hzero
    rw [truncate_of_magnitude hmagnitude, Binary64.isWhole, Binary64.isFinite, hmagnitude,
      units_of_magnitude hmagnitude, Nat.zero_mod]
    decide

theorem settled_infinity (negative : Bool) :
    (Binary64.infinity negative).settled = .infinity negative := by
  cases negative <;> decide +kernel

/-- **A number is read back** from its canonical text. -/
theorem ofText?_text (x : Binary64) :
    Binary64.ofText? (Constant.number x).text = some x.settled := by
  have htext := numberText x
  unfold Binary64.ofText? Constant.text
  generalize (Constant.number x).chars = text at *
  cases htext with
  | nan hnan =>
    rw [Binary64.settled_of_isNaN hnan]
    rfl
  | infinite negative =>
    rw [settled_infinity]
    cases negative <;> rfl
  | digits negative hwhole hne hfraction hvalue =>
    rw [Spelled.ofText?_pointed negative hwhole hne hfraction, ← hvalue]
    rfl

/-- **Numbers with one text** are settled alike. -/
theorem settled_of_chars {x y : Binary64}
    (h : (Constant.number x).chars = (Constant.number y).chars) :
    x.settled = y.settled := by
  have hread := ofText?_text x
  rw [Constant.text, h] at hread
  exact Option.some.inj (hread.symm.trans (ofText?_text y))

end Wireform
