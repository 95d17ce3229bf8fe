import Mathlib.Data.Rat.Floor
import Wireform.Binary64.Arithmetic
import Wireform.Proofs.Binary64.Values
import Wireform.Proofs.Decimal.Shortest

/-!
# What the operations on doubles give

What a double stands for is no number, an infinity or an exact value, together with a sign.
There each operation has a result, which is fixed for infinities as well, and the operation on
words gives the double nearest to it.

* `reading`: what a double stands for.
* `Reading.sum` and so on: the exact results.
* `add_eq` and so on: **each operation rounds the exact result once.**
-/

namespace Wireform.Binary64

open FloatFormat (double)

/-- What a double stands for. Zero has a sign as well. -/
inductive Reading where
  | nan
  | infinite (negative : Bool)
  | finite (negative : Bool) (value : ℚ)

/-- What a given double stands for. -/
def reading (x : Binary64) : Reading :=
  if x.isNaN then .nan
  else if x.isInfinite then .infinite x.isNegative
  else .finite x.isNegative x.value

namespace Reading

/-- The double nearest to a result. An exact value has its own sign, unless it is zero. -/
def nearest : Reading → Binary64
  | .nan => Binary64.nan
  | .infinite s => infinity s
  | .finite s a => ofValue s a

/-- The sum. Opposite infinities have none, and zero is negative only as a sum of negative terms. -/
def sum : Reading → Reading → Reading
  | .infinite s, .infinite t => if s = t then .infinite s else .nan
  | .infinite s, .finite _ _ => .infinite s
  | .finite _ _, .infinite t => .infinite t
  | .finite s a, .finite t b => .finite (s && t) (a + b)
  | _, _ => .nan

/-- The difference. Equal infinities have none, and zero is negative only if it is `-0 - 0`. -/
def difference : Reading → Reading → Reading
  | .infinite s, .infinite t => if s = t then .nan else .infinite s
  | .infinite s, .finite _ _ => .infinite s
  | .finite _ _, .infinite t => .infinite !t
  | .finite s a, .finite t b => .finite (s && !t) (a - b)
  | _, _ => .nan

/-- The product. Zero times infinity is no number. -/
def product : Reading → Reading → Reading
  | .infinite s, .infinite t => .infinite (s != t)
  | .infinite s, .finite t b => if b = 0 then .nan else .infinite (s != t)
  | .finite s a, .infinite t => if a = 0 then .nan else .infinite (s != t)
  | .finite s a, .finite t b => .finite (s != t) (a * b)
  | _, _ => .nan

/-- The quotient. One of infinities or of zeros is no number; any other by zero is infinite. -/
def quotient : Reading → Reading → Reading
  | .infinite s, .finite t _ => .infinite (s != t)
  | .finite s _, .infinite t => .finite (s != t) 0
  | .finite s a, .finite t b =>
    if b ≠ 0 then .finite (s != t) (a / b) else if a = 0 then .nan else .infinite (s != t)
  | _, _ => .nan

/-- A quotient without what is behind the point. -/
def wholePart (q : ℚ) : ℤ := if q < 0 then ⌈q⌉ else ⌊q⌋

/-- The remainder, with the sign of the dividend. That of infinity or by zero is no number. -/
def remainder : Reading → Reading → Reading
  | .finite s a, .infinite _ => .finite s a
  | .finite s a, .finite _ b => if b = 0 then .nan else .finite s (a - b * wholePart (a / b))
  | _, _ => .nan

/-- Whether what is a number is less than another one. -/
def less : Reading → Reading → Bool
  | .infinite s, .infinite t => s && !t
  | .infinite s, .finite _ _ => s
  | .finite _ _, .infinite t => !t
  | .finite _ a, .finite _ b => a < b
  | _, _ => false

end Reading

/-- The lesser of two, the first one if they are equal; what is no number gives way. -/
def lesser (x y : Binary64) : Binary64 :=
  match x.reading, y.reading with
  | .nan, _ => y
  | _, .nan => x
  | a, b => if b.less a then y else x

/-- The greater of two, the first one if they are equal; what is no number gives way. -/
def greater (x y : Binary64) : Binary64 :=
  match x.reading, y.reading with
  | .nan, _ => y
  | _, .nan => x
  | a, b => if a.less b then y else x

/-- A whole number next to a value. Infinities stay, and so does what is no number. -/
def nextWhole (next : ℚ → ℤ) (x : Binary64) : Binary64 :=
  match x.reading with
  | .finite s a => ofValue s (next a)
  | _ => x

variable {x y : Binary64} {s t : Bool}

/-! ### Readings -/

/-- A double is no number, infinite or finite. -/
inductive Kind (x : Binary64) : Prop where
  | nan (isNaN : x.isNaN = true) (reading : x.reading = .nan)
  | infinite (isNaN : x.isNaN = false) (isInfinite : x.isInfinite = true)
      (eq : x = infinity x.isNegative) (reading : x.reading = .infinite x.isNegative)
  | finite (isNaN : x.isNaN = false) (isInfinite : x.isInfinite = false)
      (isFinite : x.isFinite = true) (reading : x.reading = .finite x.isNegative x.value)

theorem kind (x : Binary64) : x.Kind := by
  rcases Nat.lt_trichotomy x.magnitude double.infinity with hlt | heq | hgt
  · have hnan : x.isNaN = false := decide_eq_false (by omega)
    have hinfinite : x.isInfinite = false := decide_eq_false (by omega)
    exact .finite hnan hinfinite (decide_eq_true hlt) (by simp [reading, hnan, hinfinite])
  · have hnan : x.isNaN = false := decide_eq_false (by omega)
    have hinfinite : x.isInfinite = true := decide_eq_true heq
    refine .infinite hnan hinfinite ?_ (by simp [reading, hnan, hinfinite])
    rw [infinity, ← heq, Decimal.ofMagnitude_magnitude]
  · have hnan : x.isNaN = true := decide_eq_true hgt
    exact .nan hnan (by simp [reading, hnan])

/-- The sign bit of a double that is not zero says whether its value is negative. -/
theorem isNegative_iff (h : x.value ≠ 0) : x.isNegative = true ↔ x.value < 0 := by
  cases hsign : x.isNegative with
  | false => exact iff_of_false (by simp) (value_nonneg hsign).not_gt
  | true => exact iff_of_true rfl (lt_of_le_of_ne (value_nonpos hsign) h)

/-- The sign of a product and of a quotient. -/
theorem bne_isNegative_iff (hx : x.value ≠ 0) (hy : y.value ≠ 0) {q : ℚ}
    (hq : q < 0 ↔ x.value * y.value < 0) : (x.isNegative != y.isNegative) = true ↔ q < 0 := by
  rw [hq, mul_neg_iff, bne_iff_ne, ← isNegative_iff hx, ← isNegative_iff hy]
  have hpos : ∀ {z : Binary64}, z.value ≠ 0 → (0 < z.value ↔ ¬z.isNegative = true) := fun hz => by
    rw [isNegative_iff hz, not_lt, lt_iff_le_and_ne, and_iff_left hz.symm]
  rw [hpos hx, hpos hy]
  cases x.isNegative <;> cases y.isNegative <;> simp

theorem ofUnitRatio_zero (negative : Bool) : ofUnitRatio negative 0 1 = zero negative := by
  have hzero : double.nearest 0 1 = 0 := by decide
  rw [ofUnitRatio, hzero, zero]

/-- What a whole number of units is rounded to. -/
theorem ofValue_units (s : Bool) (n : ℤ) : ofValue s (n / unitsPerOne) =
    if n = 0 then zero s else ofUnitRatio (n < 0) n.natAbs 1 := by
  have hone := unitsPerOne_cast_pos
  have habs : ((n.natAbs : ℕ) : ℚ) = |(n : ℚ) / unitsPerOne| * ((1 : ℕ) * unitsPerOne) := by
    rw [abs_div, abs_of_pos hone, Nat.cast_one, one_mul, div_mul_cancel₀ _ hone.ne',
      Nat.cast_natAbs, Int.cast_abs]
  have hzero : (n : ℚ) / unitsPerOne = 0 ↔ n = 0 := by
    rw [div_eq_zero_iff, or_iff_left hone.ne', Int.cast_eq_zero]
  split
  · next heq =>
    subst heq
    exact (ofUnitRatio_eq_ofValue Nat.one_pos habs (fun _ => rfl)
      fun hne => absurd (hzero.2 rfl) hne).symm.trans
      (ofUnitRatio_zero s)
  · next hne =>
    refine (ofUnitRatio_eq_ofValue Nat.one_pos habs (fun h => absurd (hzero.1 h) hne)
      fun _ => ?_).symm
    rw [decide_eq_true_iff, div_lt_iff₀ hone, zero_mul, Int.cast_lt_zero]

/-- A finite double is what its own value is rounded to. -/
theorem ofValue_value (hx : x.isFinite = true) : ofValue x.isNegative x.value = x := by
  have hnum : ((x.units : ℕ) : ℚ) = |x.value| * ((1 : ℕ) * unitsPerOne) := by
    rw [Nat.cast_one, one_mul, abs_value_mul]
  rw [← ofUnitRatio_eq_ofValue Nat.one_pos hnum (fun _ => rfl) isNegative_iff, ofUnitRatio]
  have hnearest := double.nearest_units (magnitude_lt hx) Nat.one_pos
  rw [Nat.mul_one] at hnearest
  rw [units, hnearest, Decimal.ofMagnitude_magnitude]

/-! ### Sums and differences -/

theorem ofValue_add (s : Bool) (x y : Binary64) :
    ofValue s (x.value + y.value) = if x.toUnits + y.toUnits = 0 then zero s
      else ofUnitRatio (x.toUnits + y.toUnits < 0) (x.toUnits + y.toUnits).natAbs 1 := by
  rw [← ofValue_units, value, value, ← add_div, Int.cast_add]

theorem add_eq (x y : Binary64) : x.add y = (x.reading.sum y.reading).nearest := by
  unfold add
  cases x.kind with
  | nan hnan hx =>
    rw [hx, hnan, Bool.true_or, if_pos rfl]
    cases y.reading <;> rfl
  | infinite hnan hinfinite heq hx =>
    cases y.kind with
    | nan hnan' hy =>
      rw [hx, hy, hnan', Bool.or_true, if_pos rfl]
      rfl
    | infinite hnan' hinfinite' _ hy =>
      rw [hx, hy, hnan, hnan', hinfinite, hinfinite']
      by_cases hsign : x.isNegative = y.isNegative
      · simpa [Reading.sum, Reading.nearest, hsign] using heq
      · simp [Reading.sum, Reading.nearest, hsign]
    | finite hnan' hinfinite' _ hy =>
      simp [hx, hy, hnan, hnan', hinfinite, hinfinite', Reading.sum, Reading.nearest, ← heq]
  | finite hnan hinfinite hfinite hx =>
    cases y.kind with
    | nan hnan' hy =>
      rw [hx, hy, hnan', Bool.or_true, if_pos rfl]
      rfl
    | infinite hnan' hinfinite' heq hy =>
      simp [hx, hy, hnan, hnan', hinfinite, hinfinite', Reading.sum, Reading.nearest, ← heq]
    | finite hnan' hinfinite' _ hy =>
      simp [hx, hy, hnan, hnan', hinfinite, hinfinite', Reading.sum, Reading.nearest, ofValue_add]

theorem magnitude_neg (x : Binary64) : x.neg.magnitude = x.magnitude :=
  magnitude_ofMagnitude _ (Nat.mod_lt _ (by decide))

theorem isNegative_neg (x : Binary64) : x.neg.isNegative = !x.isNegative :=
  isNegative_ofMagnitude _ (Nat.mod_lt _ (by decide))

theorem value_neg (x : Binary64) : x.neg.value = -x.value := by
  unfold value toUnits units
  rw [magnitude_neg, isNegative_neg, ← neg_div]
  congr 1
  cases x.isNegative <;> simp

theorem sub_eq (x y : Binary64) : x.sub y = (x.reading.difference y.reading).nearest := by
  have hreading : y.neg.reading = match y.reading with
      | .nan => .nan
      | .infinite t => .infinite !t
      | .finite t b => .finite (!t) (-b) := by
    unfold reading isNaN isInfinite
    rw [magnitude_neg, isNegative_neg, value_neg]
    split
    · rfl
    · split <;> rfl
  rw [sub, add_eq, hreading]
  cases x.reading <;> cases y.reading
  case infinite.infinite s t => cases s <;> cases t <;> rfl
  case finite.finite s a t b => simp only [Reading.sum, Reading.difference, sub_eq_add_neg]
  all_goals rfl

/-! ### Products, quotients and remainders -/

/-- Infinities are not zero. -/
theorem isZero_eq_false (h : x.isInfinite = true) : x.isZero = false := by
  have hmagnitude : x.magnitude = double.infinity := of_decide_eq_true h
  rw [isZero, hmagnitude]
  rfl

theorem isZero_iff (x : Binary64) : x.isZero = true ↔ x.value = 0 := value_eq_zero_iff.symm

theorem ofValue_mul (x y : Binary64) : ofValue (x.isNegative != y.isNegative) (x.value * y.value) =
    ofUnitRatio (x.isNegative != y.isNegative) (x.units * y.units) unitsPerOne := by
  refine (ofUnitRatio_eq_ofValue unitsPerOne_pos ?_ (fun _ => rfl) fun hne => ?_).symm
  · rw [abs_mul, Nat.cast_mul, ← abs_value_mul, ← abs_value_mul]
    ring
  · exact bne_isNegative_iff (left_ne_zero_of_mul hne) (right_ne_zero_of_mul hne) Iff.rfl

theorem mul_eq (x y : Binary64) : x.mul y = (x.reading.product y.reading).nearest := by
  unfold mul
  dsimp only
  cases x.kind with
  | nan hnan hx =>
    rw [hx, hnan, Bool.true_or, if_pos rfl]
    cases y.reading <;> rfl
  | infinite hnan hinfinite _ hx =>
    have hzero := isZero_eq_false hinfinite
    cases y.kind with
    | nan hnan' hy =>
      rw [hx, hy, hnan', Bool.or_true, if_pos rfl]
      rfl
    | infinite hnan' hinfinite' _ hy =>
      have hzero' := isZero_eq_false hinfinite'
      simp [hx, hy, hnan, hnan', hinfinite, hzero, hzero', Reading.product, Reading.nearest]
    | finite hnan' _ _ hy =>
      by_cases hzero' : y.value = 0
      · simp [hx, hy, hnan, hnan', hinfinite, hzero', y.isZero_iff.2 hzero', Reading.product,
          Reading.nearest]
      · simp [hx, hy, hnan, hnan', hinfinite, hzero, hzero', isZero_iff, Reading.product,
          Reading.nearest]
  | finite hnan hinfinite _ hx =>
    cases y.kind with
    | nan hnan' hy =>
      rw [hx, hy, hnan', Bool.or_true, if_pos rfl]
      rfl
    | infinite hnan' hinfinite' _ hy =>
      have hzero' := isZero_eq_false hinfinite'
      by_cases hzero : x.value = 0
      · simp [hx, hy, hnan, hnan', hinfinite', hzero, x.isZero_iff.2 hzero, Reading.product,
          Reading.nearest]
      · simp [hx, hy, hnan, hnan', hinfinite', hzero, hzero', isZero_iff, Reading.product,
          Reading.nearest]
    | finite hnan' hinfinite' _ hy =>
      simp [hx, hy, hnan, hnan', hinfinite, hinfinite', Reading.product,
        Reading.nearest, ofValue_mul]

theorem units_pos (h : x.value ≠ 0) : 0 < x.units := by
  have habs : (0 : ℚ) < x.units := by
    rw [← abs_value_mul]
    exact mul_pos (abs_pos.2 h) unitsPerOne_cast_pos
  exact_mod_cast habs

theorem ofValue_div (x : Binary64) (hy : y.value ≠ 0) :
    ofValue (x.isNegative != y.isNegative) (x.value / y.value) =
      ofRatio (x.isNegative != y.isNegative) x.units y.units := by
  refine (ofUnitRatio_eq_ofValue (units_pos hy) ?_ (fun _ => rfl) fun hne => ?_).symm
  · have habs : |y.value| ≠ 0 := abs_ne_zero.2 hy
    rw [abs_div, Nat.cast_mul, ← abs_value_mul, ← abs_value_mul]
    generalize (unitsPerOne : ℚ) = one
    field_simp
  · refine bne_isNegative_iff (div_ne_zero_iff.1 hne).1 hy ?_
    rw [div_neg_iff, mul_neg_iff]

theorem div_eq (x y : Binary64) : x.div y = (x.reading.quotient y.reading).nearest := by
  unfold div
  dsimp only
  cases x.kind with
  | nan hnan hx =>
    rw [hx, hnan, Bool.true_or, if_pos rfl]
    cases y.reading <;> rfl
  | infinite hnan hinfinite _ hx =>
    cases y.kind with
    | nan hnan' hy =>
      rw [hx, hy, hnan', Bool.or_true, if_pos rfl]
      rfl
    | infinite hnan' hinfinite' _ hy =>
      simp [hx, hy, hnan, hnan', hinfinite, hinfinite', Reading.quotient, Reading.nearest]
    | finite hnan' hinfinite' _ hy =>
      simp [hx, hy, hnan, hnan', hinfinite, hinfinite', Reading.quotient, Reading.nearest]
  | finite hnan hinfinite _ hx =>
    cases y.kind with
    | nan hnan' hy =>
      rw [hx, hy, hnan', Bool.or_true, if_pos rfl]
      rfl
    | infinite hnan' hinfinite' _ hy =>
      have hvalue (s : Bool) : ofValue s 0 = zero s := by
        have hunits := ofValue_units s 0
        rwa [Int.cast_zero, zero_div, if_pos rfl] at hunits
      simp [hx, hy, hnan, hnan', hinfinite, hinfinite', Reading.quotient, Reading.nearest, hvalue]
    | finite hnan' hinfinite' _ hy =>
      by_cases hzero' : y.value = 0
      · by_cases hzero : x.value = 0
        · simp [hx, hy, hnan, hnan', hinfinite, hinfinite', hzero, hzero', isZero_iff,
            Reading.quotient, Reading.nearest]
        · simp [hx, hy, hnan, hnan', hinfinite, hinfinite', hzero, hzero', isZero_iff,
            Reading.quotient, Reading.nearest]
      · simp [hx, hy, hnan, hnan', hinfinite, hinfinite', hzero', isZero_iff, Reading.quotient,
          Reading.nearest, ofValue_div x hzero']

theorem wholePart_neg (q : ℚ) : Reading.wholePart (-q) = -Reading.wholePart q := by
  unfold Reading.wholePart
  rcases lt_trichotomy q 0 with hneg | rfl | hpos
  · rw [if_neg (by linarith), if_pos hneg, Int.floor_neg]
  · simp
  · rw [if_pos (by linarith), if_neg (by linarith), Int.ceil_neg]

/-- Without its sign a quotient of doubles has the whole part of the quotient of their units. -/
theorem wholePart_abs (x y : Binary64) :
    Reading.wholePart (|x.value| / |y.value|) = (x.units / y.units : ℕ) := by
  have hnonneg : ¬|x.value| / |y.value| < 0 := not_lt.2 (div_nonneg (abs_nonneg _) (abs_nonneg _))
  have hunits : |x.value| / |y.value| = (x.units : ℚ) / y.units := by
    rw [abs_value, abs_value, div_div_div_cancel_right₀ unitsPerOne_cast_pos.ne']
  rw [Reading.wholePart, if_neg hnonneg, hunits, Rat.floor_natCast_div_natCast, Int.natCast_div]

/-- The value is the magnitude with its sign. -/
theorem value_eq (x : Binary64) : x.value = if x.isNegative then -|x.value| else |x.value| := by
  cases hsign : x.isNegative with
  | false => exact (abs_of_nonneg (value_nonneg hsign)).symm
  | true => rw [if_pos rfl, abs_of_nonpos (value_nonpos hsign), neg_neg]

/-- The exact remainder, in units. -/
theorem value_sub_mul_wholePart (x y : Binary64) :
    x.value - y.value * Reading.wholePart (x.value / y.value) =
      (if x.isNegative then -1 else 1) * ((x.units % y.units : ℕ) / (unitsPerOne : ℚ)) := by
  have hmod : ((x.units % y.units : ℕ) : ℚ) / unitsPerOne =
      |x.value| - |y.value| * Reading.wholePart (|x.value| / |y.value|) := by
    have hsplit : ((x.units : ℕ) : ℚ) = y.units * (x.units / y.units : ℕ) +
        (x.units % y.units : ℕ) := by
      exact_mod_cast (Nat.div_add_mod x.units y.units).symm
    rw [wholePart_abs, abs_value, abs_value, hsplit, Int.cast_natCast]
    ring
  rw [hmod, x.value_eq, y.value_eq]
  cases x.isNegative <;> cases y.isNegative <;>
    simp [wholePart_neg, neg_div, div_neg] <;> ring

theorem ofValue_rem (x y : Binary64) :
    ofValue x.isNegative (x.value - y.value * Reading.wholePart (x.value / y.value)) =
      ofUnitRatio x.isNegative (x.units % y.units) 1 := by
  have hone := unitsPerOne_cast_pos
  rw [value_sub_mul_wholePart]
  generalize x.units % y.units = n
  have hnonneg : (0 : ℚ) ≤ n / unitsPerOne := div_nonneg (Nat.cast_nonneg _) hone.le
  refine (ofUnitRatio_eq_ofValue Nat.one_pos ?_ (fun _ => rfl) fun hne => ?_).symm
  · have habs : |(if x.isNegative then (-1 : ℚ) else 1)| = 1 := by split <;> simp
    rw [abs_mul, habs, one_mul, abs_of_nonneg hnonneg, Nat.cast_one, one_mul,
      div_mul_cancel₀ _ hone.ne']
  · have hpos : (0 : ℚ) < n / unitsPerOne := lt_of_le_of_ne hnonneg (right_ne_zero_of_mul hne).symm
    generalize (n : ℚ) / unitsPerOne = q at hnonneg hpos ⊢
    cases x.isNegative with
    | false => simpa using hnonneg
    | true => simpa using hpos

theorem rem_eq (x y : Binary64) : x.rem y = (x.reading.remainder y.reading).nearest := by
  unfold rem
  cases x.kind with
  | nan hnan hx =>
    rw [hx, hnan]
    simp only [Bool.true_or, ↓reduceIte]
    cases y.reading <;> rfl
  | infinite hnan hinfinite _ hx =>
    rw [hx, hinfinite]
    simp only [Bool.true_or, Bool.or_true, ↓reduceIte]
    cases y.reading <;> rfl
  | finite hnan hinfinite hfinite hx =>
    cases y.kind with
    | nan hnan' hy =>
      rw [hx, hy, hnan']
      simp only [Bool.true_or, Bool.or_true, ↓reduceIte]
      rfl
    | infinite hnan' hinfinite' _ hy =>
      have hzero := isZero_eq_false hinfinite'
      simp [hx, hy, hnan, hnan', hinfinite, hinfinite', hzero, Reading.remainder, Reading.nearest,
        ofValue_value hfinite]
    | finite hnan' hinfinite' _ hy =>
      by_cases hzero : y.value = 0
      · simp [hx, hy, hnan, hnan', hinfinite, hzero, isZero_iff, Reading.remainder, Reading.nearest]
      · simp [hx, hy, hnan, hnan', hinfinite, hinfinite', hzero, isZero_iff, Reading.remainder,
          Reading.nearest, ofValue_rem]

/-! ### Whole numbers -/

/-- The whole number that is next upward, as the quotient of natural numbers gives it. -/
theorem ceil_div (n : ℕ) {d : ℕ} (hd : 0 < d) :
    ⌈(n : ℚ) / d⌉ = ((if n % d ≠ 0 then n / d + 1 else n / d : ℕ) : ℤ) := by
  have hpos : (0 : ℚ) < d := Nat.cast_pos.2 hd
  have hsplit : (n : ℚ) = d * (n / d : ℕ) + (n % d : ℕ) := by
    exact_mod_cast (Nat.div_add_mod n d).symm
  have hless : ((n % d : ℕ) : ℚ) < d := Nat.cast_lt.2 (Nat.mod_lt n hd)
  rw [Int.ceil_eq_iff, lt_div_iff₀ hpos, div_le_iff₀ hpos, hsplit]
  generalize n / d = q
  split
  · next hne =>
    have hrest : (0 : ℚ) < (n % d : ℕ) := Nat.cast_pos.2 (Nat.pos_of_ne_zero hne)
    push_cast
    constructor <;> nlinarith
  · next hzero =>
    rw [not_not.1 hzero]
    push_cast
    constructor <;> nlinarith

/-- The whole number next to a magnitude, downward or upward. -/
def nextTo (up : Bool) (x : Binary64) : ℤ := if up then ⌈|x.value|⌉ else ⌊|x.value|⌋

theorem nextTo_eq (up : Bool) (x : Binary64) : nextTo up x =
    ((if up && x.units % unitsPerOne ≠ 0 then x.units / unitsPerOne + 1
      else x.units / unitsPerOne : ℕ) : ℤ) := by
  rw [nextTo, abs_value]
  cases up with
  | false =>
    rw [if_neg Bool.false_ne_true, Rat.floor_natCast_div_natCast, Bool.false_and,
      if_neg Bool.false_ne_true, Int.natCast_div]
  | true =>
    rw [if_pos rfl, ceil_div _ unitsPerOne_pos, Bool.true_and]; simp only [decide_eq_true_iff]

theorem isFinite_eq (x : Binary64) : x.isFinite = (!x.isNaN && !x.isInfinite) := by
  cases x.kind with
  | nan hnan _ =>
    have hgt : double.infinity < x.magnitude := of_decide_eq_true hnan
    rw [hnan, Bool.not_true, Bool.false_and]
    exact decide_eq_false (by omega)
  | infinite _ hinfinite _ _ =>
    have heq : x.magnitude = double.infinity := of_decide_eq_true hinfinite
    rw [hinfinite, Bool.not_true, Bool.and_false]
    exact decide_eq_false (by omega)
  | finite hnan hinfinite hfinite _ => rw [hnan, hinfinite, hfinite]; rfl

theorem toWhole_eq {next : ℚ → ℤ} {up : Bool} (x : Binary64)
    (h : next x.value = if x.isNegative then -nextTo up x else nextTo up x) :
    toWhole up x = x.nextWhole next := by
  unfold toWhole nextWhole
  dsimp only
  cases x.kind with
  | nan hnan hx =>
    rw [isFinite_eq, hnan, hx, Bool.not_true, Bool.false_and, if_neg Bool.false_ne_true]
  | infinite _ hinfinite _ hx =>
    rw [isFinite_eq, hinfinite, hx, Bool.not_true, Bool.and_false, if_neg Bool.false_ne_true]
  | finite _ _ hfinite hx =>
    rw [if_pos hfinite, hx]
    dsimp only
    rw [h, nextTo_eq]
    generalize (if up && x.units % unitsPerOne ≠ 0 then x.units / unitsPerOne + 1
      else x.units / unitsPerOne) = n
    refine ofUnitRatio_eq_ofValue Nat.one_pos ?_ (fun _ => rfl) fun hne => ?_
    · rw [Nat.cast_mul, Nat.cast_one, one_mul]
      congr 1
      cases x.isNegative <;> simp
    · cases hsign : x.isNegative with
      | false => simp
      | true =>
        rw [hsign, if_pos rfl] at hne
        have hpos : 0 < n := Nat.pos_of_ne_zero fun hzero => hne (by rw [hzero]; simp)
        simpa using hpos

theorem floor_eq (x : Binary64) : x.floor = x.nextWhole Int.floor := by
  refine toWhole_eq x ?_
  unfold nextTo
  cases hsign : x.isNegative with
  | false =>
    rw [if_neg Bool.false_ne_true, if_neg Bool.false_ne_true, abs_of_nonneg (value_nonneg hsign)]
  | true => rw [if_pos rfl, if_pos rfl, abs_of_nonpos (value_nonpos hsign), Int.ceil_neg, neg_neg]

theorem ceil_eq (x : Binary64) : x.ceil = x.nextWhole Int.ceil := by
  refine toWhole_eq x ?_
  unfold nextTo
  cases hsign : x.isNegative with
  | false =>
    rw [if_neg Bool.false_ne_true, Bool.not_false, if_pos rfl, abs_of_nonneg (value_nonneg hsign)]
  | true =>
    rw [if_pos rfl, Bool.not_true, if_neg Bool.false_ne_true,
      abs_of_nonpos (value_nonpos hsign), Int.floor_neg, neg_neg]

/-- One half is a double. -/
theorem reading_half : half.reading = .finite false (1 / 2) := by
  have hnan : half.isNaN = false := by decide +kernel
  have hinfinite : half.isInfinite = false := by decide +kernel
  have hnegative : half.isNegative = false := by decide +kernel
  have hunits : 2 * half.toUnits = unitsPerOne := by decide +kernel
  have hvalue : half.value = 1 / 2 := by
    have hone := unitsPerOne_cast_pos.ne'
    have hcast : 2 * (half.toUnits : ℚ) = unitsPerOne := by exact_mod_cast hunits
    rw [value, div_eq_div_iff hone two_ne_zero, one_mul, mul_comm, hcast]
  rw [reading, hnan, hinfinite, hnegative, hvalue]
  rfl

theorem round_eq (x : Binary64) :
    x.round = (x.reading.sum (.finite false (1 / 2))).nearest.nextWhole Int.floor := by
  rw [round, floor_eq, add_eq, reading_half]

/-! ### Order -/

theorem rank_lt_iff (x y : Binary64) : x.rank < y.rank ↔ x.toUnits < y.toUnits := by
  have hless := double.units_strictMono.lt_iff_lt (a := x.magnitude) (b := y.magnitude)
  have hgreater := double.units_strictMono.lt_iff_lt (a := y.magnitude) (b := x.magnitude)
  have hzero : double.units x.magnitude = 0 ↔ x.magnitude = 0 := double.units_eq_zero
  have hzero' : double.units y.magnitude = 0 ↔ y.magnitude = 0 := double.units_eq_zero
  unfold rank toUnits units
  split <;> split <;> omega

theorem value_lt_iff (x y : Binary64) : x.value < y.value ↔ x.toUnits < y.toUnits := by
  rw [value, value, div_lt_div_iff_of_pos_right unitsPerOne_cast_pos, Int.cast_lt]

/-- Doubles are ordered by what they stand for. -/
theorem lt_eq (x y : Binary64) : x.lt y = x.reading.less y.reading := by
  unfold lt
  cases x.kind with
  | nan hnan hx =>
    rw [hx, hnan, Bool.not_true, Bool.false_and, Bool.false_and]
    cases y.reading <;> rfl
  | infinite hnan hinfinite _ hx =>
    have hmagnitude : x.magnitude = double.infinity := of_decide_eq_true hinfinite
    cases y.kind with
    | nan hnan' hy =>
      rw [hx, hy, hnan', Bool.not_true, Bool.and_false, Bool.false_and]
      rfl
    | infinite hnan' hinfinite' _ hy =>
      have hmagnitude' : y.magnitude = double.infinity := of_decide_eq_true hinfinite'
      rw [hx, hy, hnan, hnan']
      unfold rank
      rw [hmagnitude, hmagnitude']
      cases x.isNegative <;> cases y.isNegative <;> rfl
    | finite hnan' _ hfinite' hy =>
      have hmagnitude' := magnitude_lt hfinite'
      rw [hx, hy, hnan, hnan']
      unfold rank
      rw [hmagnitude]
      cases x.isNegative with
      | false =>
        refine decide_eq_false ?_
        rw [if_neg Bool.false_ne_true]
        split <;> omega
      | true =>
        refine decide_eq_true ?_
        rw [if_pos rfl]
        split <;> omega
  | finite hnan _ hfinite hx =>
    have hmagnitude := magnitude_lt hfinite
    cases y.kind with
    | nan hnan' hy =>
      rw [hx, hy, hnan', Bool.not_true, Bool.and_false, Bool.false_and]
      rfl
    | infinite hnan' hinfinite' _ hy =>
      have hmagnitude' : y.magnitude = double.infinity := of_decide_eq_true hinfinite'
      rw [hx, hy, hnan, hnan']
      unfold rank
      rw [hmagnitude']
      cases y.isNegative with
      | false =>
        refine decide_eq_true ?_
        rw [if_neg (c := false = true) Bool.false_ne_true]
        split <;> omega
      | true =>
        refine decide_eq_false ?_
        rw [if_pos (c := true = true) rfl]
        split <;> omega
    | finite hnan' _ hfinite' hy =>
      rw [hx, hy, hnan, hnan', Reading.less, Bool.not_false, Bool.true_and, Bool.true_and,
        decide_eq_decide, rank_lt_iff, value_lt_iff]

theorem isNaN_eq (x : Binary64) : x.isNaN = match x.reading with | .nan => true | _ => false := by
  cases x.kind with
  | nan hnan hx => rw [hnan, hx]
  | infinite hnan _ _ hx => rw [hnan, hx]
  | finite hnan _ _ hx => rw [hnan, hx]

theorem min_eq (x y : Binary64) : x.min y = x.lesser y := by
  unfold min lesser
  rw [isNaN_eq, isNaN_eq, lt_eq]
  cases x.reading <;> cases y.reading <;> rfl

theorem max_eq (x y : Binary64) : x.max y = x.greater y := by
  unfold max greater
  rw [isNaN_eq, isNaN_eq, lt_eq]
  cases x.reading <;> cases y.reading <;> rfl

end Wireform.Binary64
