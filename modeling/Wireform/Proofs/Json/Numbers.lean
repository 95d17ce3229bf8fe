import Mathlib.Data.List.TakeDrop
import Wireform.Json.Printer
import Wireform.Json.Reader
import Wireform.Proofs.Decimal.Shortest
import Wireform.Proofs.Json.Scaling

/-!
# Numbers read back

The text of a number is read to its end if what follows cannot be taken for a part of it, as is the
case for all that may follow a value in compact text. An integer is read as itself. A double need
not be, because its significand is rounded before it is scaled; it is if it has few digits.

* `Json.Closes`: what may follow a value.
* `Json.exists_positional`: a number that is written positionally is made of its digits.
* `Number.reread?`: the number as which the text of a number is read.
* `Json.reread?_integer`, `Json.reread?_float`: integers, and doubles with few digits.
-/

namespace Wireform

/-! ### Runs of digits -/

/-- No digit stands in front. -/
def NoDigit (rest : List Char) : Prop := ∀ c ∈ rest.head?, c.isDigit = false

theorem takeDigits_append {digits rest : List Char} (hdigits : ∀ c ∈ digits, c.isDigit = true)
    (hrest : NoDigit rest) :
    takeDigits (digits ++ rest) = (digits, rest) := by
  unfold takeDigits
  rw [List.span_eq_takeWhile_dropWhile, List.takeWhile_append_of_pos hdigits,
    List.dropWhile_append_of_pos hdigits]
  cases rest with
  | nil => rw [List.takeWhile_nil, List.dropWhile_nil, List.append_nil]
  | cons c rest =>
    have hc : ¬c.isDigit = true := Bool.eq_false_iff.1 (hrest c rfl)
    rw [List.takeWhile_cons_of_neg hc, List.dropWhile_cons_of_neg hc, List.append_nil]

namespace Decimal

theorem isDigit_digitChars (n : Nat) : ∀ c ∈ digitChars n, c.isDigit = true :=
  fun _ hc => Nat.isDigit_of_mem_toDigits (by decide) (by decide) hc

theorem ofDigits_digitChars (n : Nat) : ofDigits (digitChars n) = n :=
  Nat.ofDigitChars_toDigits (by decide) (by decide)

theorem length_digitChars (n : Nat) : (digitChars n).length = digitCount n := rfl

/-- Only zero is written with a zero in front. -/
theorem head?_digitChars {n : Nat} (hn : n ≠ 0) : (digitChars n).head? ≠ some '0' := by
  induction n using Nat.strongRecOn with
  | ind n ih =>
    unfold digitChars
    rcases Nat.lt_or_ge n 10 with hlt | hge
    · rw [Nat.toDigits_of_lt_base hlt]
      have hall : ∀ k : Fin 10, k.val ≠ 0 → [Nat.digitChar k.val].head? ≠ some '0' := by decide
      exact hall ⟨n, hlt⟩ hn
    · -- the first digit is that of the quotient
      have hfirst := ih (n / 10) (by omega) (by omega)
      obtain ⟨c, rest, hcons⟩ :=
        List.exists_cons_of_ne_nil (Nat.toDigits_ne_nil (n := n / 10) (b := 10))
      rw [digitChars, hcons] at hfirst
      rw [Nat.toDigits_of_base_le (by decide) hge, hcons]
      exact hfirst

end Decimal

theorem ofDigits_append (digits more : List Char) :
    ofDigits (digits ++ more) = ofDigits digits * 10 ^ more.length + ofDigits more := by
  unfold ofDigits
  rw [Nat.ofDigitChars_append, Nat.ofDigitChars_eq_ofDigitChars_zero, Nat.mul_comm]

theorem ofDigits_zeros (count : Nat) : ofDigits (List.replicate count '0') = 0 := by
  induction count with
  | zero => rfl
  | succ count ih =>
    rw [List.replicate_succ']
    rw [ofDigits_append, ih, Nat.zero_mul]
    rfl

namespace Json

/-- What may follow a value in compact text. -/
def Closes (rest : List Char) : Prop := ∀ c ∈ rest.head?, c = ',' ∨ c = ']' ∨ c = '\x7d'

theorem Closes.noDigit {rest : List Char} (h : Closes rest) : NoDigit rest := by
  intro c hc
  rcases h c hc with rfl | rfl | rfl <;> rfl

/-! ### The parts of a number -/

theorem readWhole?_append {whole rest : List Char} (hdigits : ∀ c ∈ whole, c.isDigit = true)
    (hne : whole ≠ []) (hzero : whole.head? ≠ some '0' ∨ whole = ['0']) (hrest : NoDigit rest) :
    readWhole? (whole ++ rest) = some (whole, rest) := by
  unfold readWhole?
  rw [takeDigits_append hdigits hrest]
  split
  · next heq => exact absurd (Prod.mk.inj heq).1 hne
  · next heq =>
    obtain ⟨rfl, rfl⟩ := Prod.mk.inj heq
    rfl
  · next hother heq =>
    obtain ⟨rfl, rfl⟩ := Prod.mk.inj heq
    rcases hzero with hzero | hzero
    · exact absurd rfl hzero
    · exact absurd (List.cons.inj hzero).2 hother
  · rfl

theorem readFraction?_point {fraction rest : List Char} (hdigits : ∀ c ∈ fraction, c.isDigit = true)
    (hne : fraction ≠ []) (hrest : NoDigit rest) :
    readFraction? ('.' :: (fraction ++ rest)) = some (fraction, rest) := by
  have htake : Decimal.takeFraction ('.' :: (fraction ++ rest)) = (fraction, rest) := by
    simp only [Decimal.takeFraction]
    rw [takeDigits_append hdigits hrest]
    split
    · next heq => exact absurd (Prod.mk.inj heq).1 hne
    · rfl
  rw [readFraction?, htake]
  split
  · next heq => exact absurd (Prod.mk.inj heq).1 hne
  · rfl

theorem readFraction?_none {rest : List Char} (h : rest.head? ≠ some '.') :
    readFraction? rest = some ([], rest) := by
  have htake : Decimal.takeFraction rest = ([], rest) := by
    unfold Decimal.takeFraction
    split
    · exact absurd rfl h
    · rfl
  rw [readFraction?, htake]
  split
  · next heq =>
    obtain ⟨-, rfl⟩ := Prod.mk.inj heq
    exact absurd rfl h
  · rfl

/-- The sign of an exponent. -/
def exponentSign (negative : Bool) : Char := if negative then '-' else '+'

theorem readExponent?_mark (negative : Bool) {digits rest : List Char}
    (hdigits : ∀ c ∈ digits, c.isDigit = true) (hne : digits ≠ []) (hrest : NoDigit rest) :
    readExponent? ('e' :: exponentSign negative :: (digits ++ rest)) =
      some (some (if negative then -(ofDigits digits : Int) else ofDigits digits), rest) := by
  have htake : Decimal.takeExponent ('e' :: exponentSign negative :: (digits ++ rest)) =
      (some (if negative then -(ofDigits digits : Int) else ofDigits digits), rest) := by
    cases negative <;>
    · simp only [Decimal.takeExponent, exponentSign, true_or, if_true, Bool.false_eq_true, if_false]
      rw [takeDigits_append hdigits hrest]
      split
      · next heq => exact absurd (Prod.mk.inj heq).1 hne
      · next heq =>
        obtain ⟨rfl, rfl⟩ := Prod.mk.inj heq
        rfl
  rw [readExponent?, htake]

theorem readExponent?_none {rest : List Char} (h : ∀ c ∈ rest.head?, c ≠ 'e' ∧ c ≠ 'E') :
    readExponent? rest = some (none, rest) := by
  have htake : Decimal.takeExponent rest = (none, rest) := by
    cases rest with
    | nil => rfl
    | cons c rest =>
      obtain ⟨hlower, hupper⟩ := h c rfl
      simp only [Decimal.takeExponent, hlower, hupper, or_self, if_false]
  rw [readExponent?, htake]
  split
  · next heq =>
    obtain ⟨-, rfl⟩ := Prod.mk.inj heq
    exact absurd rfl (h 'e' rfl).1
  · next heq =>
    obtain ⟨-, rfl⟩ := Prod.mk.inj heq
    exact absurd rfl (h 'E' rfl).2
  · rfl

/-! ### The text of a magnitude -/

/-- A text without a sign that is read as these parts of a number. -/
def Spells (text whole fraction : List Char) (exponent : Option Int) : Prop :=
  ∀ rest, Closes rest → ∃ rest₁ rest₂, readWhole? (text ++ rest) = some (whole, rest₁) ∧
    readFraction? rest₁ = some (fraction, rest₂) ∧ readExponent? rest₂ = some (exponent, rest)

theorem spells_point {whole fraction : List Char} (hwhole : ∀ c ∈ whole, c.isDigit = true)
    (hne : whole ≠ []) (hzero : whole.head? ≠ some '0' ∨ whole = ['0'])
    (hfraction : ∀ c ∈ fraction, c.isDigit = true) (hne' : fraction ≠ []) :
    Spells (whole ++ '.' :: fraction) whole fraction none := by
  intro rest hrest
  refine ⟨'.' :: (fraction ++ rest), rest, ?_, readFraction?_point hfraction hne' hrest.noDigit, ?_⟩
  · rw [List.append_assoc]
    exact readWhole?_append hwhole hne hzero fun c hc => Option.some.inj hc ▸ rfl
  · refine readExponent?_none fun c hc => ?_
    rcases hrest c hc with rfl | rfl | rfl <;> exact ⟨by decide, by decide⟩

section Magnitude

open Decimal

theorem isDigit_zeros (count : Nat) : ∀ c ∈ List.replicate count '0', c.isDigit = true := by
  intro c hc
  rw [(List.mem_replicate.1 hc).2]
  rfl

theorem isDigit_append {digits more : List Char} (hdigits : ∀ c ∈ digits, c.isDigit = true)
    (hmore : ∀ c ∈ more, c.isDigit = true) : ∀ c ∈ digits ++ more, c.isDigit = true :=
  fun c hc => (List.mem_append.1 hc).elim (hdigits c) (hmore c)

theorem ofParts_eq {whole fraction : List Char} {exponent : Int} {d : Decimal}
    (hdigits : ofDigits (whole ++ fraction) = d.digits)
    (hexponent : exponent - fraction.length = d.exponent) :
    Decimal.ofParts whole fraction exponent = d := by
  rw [Decimal.ofParts, hdigits, hexponent]

theorem digitChars_ne_nil (n : Nat) : digitChars n ≠ [] := Nat.toDigits_ne_nil

/-- Digits before and after a point; without any after it there is no point. -/
def pointed (whole fraction : List Char) : List Char :=
  whole ++ if fraction = [] then [] else '.' :: fraction

theorem pointed_nil (whole : List Char) : pointed whole [] = whole := by
  rw [pointed, if_pos rfl, List.append_nil]

theorem pointed_of_ne_nil (whole : List Char) {fraction : List Char} (h : fraction ≠ []) :
    pointed whole fraction = whole ++ '.' :: fraction := by
  rw [pointed, if_neg h]

/-- The digits of a number that is written positionally: no needless zero stands in front. -/
structure Positional (f : FloatFormat) (d : Decimal) (whole fraction : List Char) : Prop where
  whole_digits : ∀ c ∈ whole, c.isDigit = true
  whole_ne_nil : whole ≠ []
  head : whole.head? ≠ some '0' ∨ whole = ['0']
  fraction_digits : ∀ c ∈ fraction, c.isDigit = true
  value : nearestWord f (.ofParts whole fraction 0) = nearestWord f d

/-- The digits behind a zero, the point and more zeros. -/
theorem positional_front (f : FloatFormat) {d : Decimal} {count : ℕ}
    (hcount : (count : Int) = -((digitChars d.digits).length + d.exponent)) :
    Positional f d ['0'] (List.replicate count '0' ++ digitChars d.digits) := by
  have hzero : ofDigits ['0'] = 0 := rfl
  refine ⟨isDigit_zeros 1, List.cons_ne_nil _ _, Or.inr rfl,
    isDigit_append (isDigit_zeros _) (isDigit_digitChars _), congrArg _ (ofParts_eq ?_ ?_)⟩
  · rw [ofDigits_append, ofDigits_append, ofDigits_zeros, ofDigits_digitChars, hzero,
      Nat.zero_mul, Nat.zero_mul, Nat.zero_add, Nat.zero_add]
  · rw [List.length_append, List.length_replicate]
    omega

/-- The digits in front of more zeros, of which some may stand behind the point. -/
theorem positional_behind (f : FloatFormat) {d : Decimal}
    (hd : d.digits = 0 → d.exponent = 0) {count : ℕ}
    (hcount : (count : Int) = d.exponent) (zeros : ℕ) :
    Positional f d (digitChars d.digits ++ List.replicate count '0')
      (List.replicate zeros '0') where
  whole_digits := isDigit_append (isDigit_digitChars _) (isDigit_zeros count)
  whole_ne_nil := List.append_ne_nil_of_left_ne_nil (digitChars_ne_nil _) _
  head := by
    rcases Nat.eq_zero_or_pos d.digits with hzero | hpos
    · -- zero has one digit and no exponent
      obtain rfl : count = 0 := by
        have := hd hzero
        omega
      rw [hzero]
      exact Or.inr rfl
    · refine Or.inl ?_
      obtain ⟨c, rest, hdigits⟩ := List.exists_cons_of_ne_nil (digitChars_ne_nil d.digits)
      have hhead := head?_digitChars (Nat.ne_of_gt hpos)
      rw [hdigits] at hhead ⊢
      exact hhead
  fraction_digits := isDigit_zeros zeros
  value := by
    have hparts : Decimal.ofParts (digitChars d.digits ++ List.replicate count '0')
        (List.replicate zeros '0') 0 =
        ⟨d.digits * 10 ^ (count + zeros), -zeros⟩ := by
      refine ofParts_eq ?_ ?_
      · rw [ofDigits_append, ofDigits_append, ofDigits_zeros, ofDigits_zeros, ofDigits_digitChars,
          List.length_replicate, List.length_replicate, Nat.add_zero, Nat.add_zero,
          Nat.mul_assoc, ← Nat.pow_add]
      · rw [List.length_replicate, Int.zero_sub]
    have hback : -(zeros : Int) + ((count + zeros : ℕ) : Int) = d.exponent := by omega
    rw [hparts, nearestWord_shift, hback]

/-- The point between the digits. -/
theorem positional_between (f : FloatFormat) {d : Decimal}
    (hd : d.digits = 0 → d.exponent = 0) {place : ℕ}
    (hplace : (place : Int) = (digitChars d.digits).length + d.exponent) (hpos : 0 < place)
    (hlt : place < (digitChars d.digits).length) :
    Positional f d ((digitChars d.digits).take place) ((digitChars d.digits).drop place) := by
  -- zero has no exponent, so the point does not stand in front of its only digit
  have hnonzero : d.digits ≠ 0 := by
    intro hzero
    have hnone := hd hzero
    omega
  refine ⟨fun c hc => isDigit_digitChars _ c (List.mem_of_mem_take hc), ?_, Or.inl ?_,
    fun c hc => isDigit_digitChars _ c (List.mem_of_mem_drop hc), congrArg _ (ofParts_eq ?_ ?_)⟩
  · exact List.ne_nil_of_length_pos (by rw [List.length_take]; omega)
  · rw [List.head?_take, if_neg (Nat.ne_of_gt hpos)]
    exact head?_digitChars hnonzero
  · rw [List.take_append_drop, ofDigits_digitChars]
  · rw [List.length_drop]
    omega

/-- **A number that is written positionally** is made of its digits. -/
theorem exists_positional (f : FloatFormat) {d : Decimal} (hd : d.digits = 0 → d.exponent = 0)
    (wholePoint : Bool) :
    ∃ whole fraction,
      positionalChars wholePoint (digitChars d.digits) (d.leadingExponent + 1) =
        pointed whole fraction ∧
      Positional f d whole fraction ∧ (wholePoint = true → fraction ≠ []) := by
  have hplaces : d.leadingExponent + 1 = (digitChars d.digits).length + d.exponent := by
    rw [leadingExponent, length_digitChars]
    omega
  rw [hplaces, positionalChars]
  split
  · next hle =>
    have hne : List.replicate (-((digitChars d.digits).length + d.exponent)).toNat '0' ++
        digitChars d.digits ≠ [] :=
      List.append_ne_nil_of_right_ne_nil _ (digitChars_ne_nil _)
    exact ⟨_, _, (pointed_of_ne_nil ['0'] hne).symm, positional_front f (by omega), fun _ => hne⟩
  · dsimp only
    split
    · next hle =>
      generalize hcount : ((digitChars d.digits).length + d.exponent).toNat -
        (digitChars d.digits).length = count
      have hbehind := positional_behind f hd (by omega : (count : Int) = d.exponent)
      cases wholePoint with
      | true =>
        exact ⟨_, _, (pointed_of_ne_nil _ (List.cons_ne_nil '0' [])).symm, hbehind 1,
          fun _ => List.cons_ne_nil _ _⟩
      | false =>
        refine ⟨_, _, ?_, hbehind 0, fun h => absurd h Bool.false_ne_true⟩
        rw [List.replicate_zero, pointed_nil, if_neg Bool.false_ne_true, List.append_nil]
    · next hlt =>
      have hdrop : (digitChars d.digits).drop
          ((digitChars d.digits).length + d.exponent).toNat ≠ [] :=
        List.ne_nil_of_length_pos (by rw [List.length_drop]; omega)
      exact ⟨_, _, (pointed_of_ne_nil _ hdrop).symm,
        positional_between f hd (by omega) (by omega) (by omega), fun _ => hdrop⟩

theorem spells_positional (f : FloatFormat) {d : Decimal} (hd : d.digits = 0 → d.exponent = 0) :
    ∃ whole fraction, Spells (positionalChars true (digitChars d.digits) (d.leadingExponent + 1))
      whole fraction none ∧
      fraction ≠ [] ∧ nearestWord f (.ofParts whole fraction 0) = nearestWord f d := by
  obtain ⟨whole, fraction, htext, h, hpoint⟩ := exists_positional f hd true
  have hne := hpoint rfl
  refine ⟨whole, fraction, ?_, hne, h.value⟩
  rw [htext, pointed_of_ne_nil whole hne]
  exact spells_point h.whole_digits h.whole_ne_nil h.head h.fraction_digits hne

/-- A number that is written with an exponent. -/
theorem spells_exponent (f : FloatFormat) {d : Decimal} (hd : d.digits ≠ 0) :
    ∃ whole fraction exponent, Spells
      (exponentChars true (digitChars d.digits) d.leadingExponent) whole fraction
        (some exponent) ∧
      nearestWord f (.ofParts whole fraction exponent) = nearestWord f d := by
  have hdigits := isDigit_digitChars d.digits
  have hhead := head?_digitChars hd
  have hvalue := ofDigits_digitChars d.digits
  have hleading : d.leadingExponent = (digitChars d.digits).length + d.exponent - 1 := rfl
  obtain ⟨first, rest, hcons⟩ := List.exists_cons_of_ne_nil (digitChars_ne_nil d.digits)
  rw [hcons] at hdigits hhead hvalue hleading ⊢
  generalize d.leadingExponent = exponent at *
  -- the exponent with its sign
  have hexponent : ∀ text, Closes text → readExponent? ('e' :: exponentSign (exponent < 0) ::
      (digitChars exponent.natAbs ++ text)) = some (some exponent, text) := by
    intro text htext
    rw [readExponent?_mark _ (isDigit_digitChars _) (digitChars_ne_nil _) htext.noDigit,
      ofDigits_digitChars]
    congr 3
    simp only [decide_eq_true_eq]
    split <;> omega
  have hfirst : ∀ c ∈ [first], c.isDigit = true :=
    List.forall_mem_singleton.2 (hdigits first List.mem_cons_self)
  have hwhole : ∀ text, NoDigit text → readWhole? (first :: text) = some ([first], text) :=
    fun text htext => readWhole?_append hfirst (List.cons_ne_nil _ _) (Or.inl hhead) htext
  refine ⟨[first], rest, exponent, fun text htext => ?_, congrArg _ (ofParts_eq ?_ ?_)⟩
  · have hform : exponentChars true (first :: rest) exponent ++ text =
        first :: ((if rest = [] then [] else '.' :: rest) ++
          'e' :: exponentSign (exponent < 0) :: (digitChars exponent.natAbs ++ text)) := by
      unfold exponentChars exponentSign
      cases rest <;> by_cases hneg : exponent < 0 <;> simp [hneg]
    have hmark :
        NoDigit ('e' :: exponentSign (exponent < 0) :: (digitChars exponent.natAbs ++ text)) :=
      fun c hc => Option.some.inj hc ▸ rfl
    rw [hform]
    by_cases hrest : rest = []
    · subst hrest
      rw [if_pos rfl, List.nil_append]
      exact ⟨_, _, hwhole _ hmark,
        readFraction?_none fun heq => absurd (Option.some.inj heq) (by decide),
        hexponent text htext⟩
    · rw [if_neg hrest]
      refine ⟨_, _, hwhole _ fun c hc => ?_,
        readFraction?_point (fun c hc => hdigits c (List.mem_cons_of_mem _ hc))
        hrest hmark, hexponent text htext⟩
      exact Option.some.inj hc ▸ rfl
  · exact hvalue
  · rw [hleading, List.length_cons]
    omega

end Magnitude

/-! ### Numbers -/

/-- A text with a sign in front. -/
def signed (negative : Bool) (text : List Char) : List Char :=
  if negative then '-' :: text else text

/-- A sign and the text of a magnitude. -/
theorem readNumber?_of_spells (negative : Bool) {text whole fraction : List Char}
    {exponent : Option Int} (htext : Spells text whole fraction exponent) {rest : List Char}
    (hrest : Closes rest) :
    readNumber? (signed negative text ++ rest) =
      (numberOfParts? negative whole fraction exponent).map (·, rest) := by
  obtain ⟨rest₁, rest₂, hwhole, hfraction, hexponent⟩ := htext rest hrest
  have hbody : (do
      let first ← readWhole? (text ++ rest)
      let second ← readFraction? first.2
      let third ← readExponent? second.2
      let value ← numberOfParts? negative first.1 second.1 third.1
      return (value, third.2)) =
        (numberOfParts? negative whole fraction exponent).map (·, rest) := by
    simp only [hwhole, hfraction, hexponent, Option.bind_eq_bind, Option.bind_some]
    cases numberOfParts? negative whole fraction exponent <;> rfl
  cases negative with
  | true => exact hbody
  | false =>
    -- a magnitude does not begin with a sign
    have hsign : ∀ body, text ++ rest ≠ '-' :: body := by
      intro body heq
      rw [heq] at hwhole
      cases hwhole
    rw [signed, if_neg Bool.false_ne_true]
    generalize text ++ rest = s at *
    unfold readNumber?
    split
    next heq =>
    split at heq
    · next body => exact absurd rfl (hsign body)
    · obtain ⟨rfl, rfl⟩ := Prod.mk.inj heq
      exact hbody

open Decimal in
/-- The text of a finite magnitude has a point or an exponent. -/
theorem spells_magnitude {x : Binary64} (finite : x.isFinite = true) :
    ∃ whole fraction exponent, Spells (jsonStyle.magnitudeChars x) whole fraction exponent ∧
      (fraction ≠ [] ∨ exponent ≠ none) ∧
      nearestWord .double (.ofParts whole fraction (exponent.getD 0)) = x.magnitude := by
  have hmagnitude := nearestWord_shortest .even finite
  have hzero := exponent_shortest .even finite
  have hhalfway : jsonStyle.halfway = .even := rfl
  rw [Style.magnitudeChars, hhalfway]
  generalize (shortest .even x).trim = d at *
  split
  · obtain ⟨whole, fraction, htext, hne, hvalue⟩ := spells_positional .double hzero
    exact ⟨whole, fraction, none, htext, Or.inl hne, hvalue.trans hmagnitude⟩
  · next hfirst =>
    -- zero is written positionally
    have hdigits : d.digits ≠ 0 := by
      intro hdigits
      have hleading : d.leadingExponent = 0 := by
        rw [leadingExponent, hdigits, hzero hdigits]
        rfl
      exact hfirst (by rw [hleading]; rfl)
    obtain ⟨whole, fraction, exponent, htext, hvalue⟩ := spells_exponent .double hdigits
    exact ⟨whole, fraction, some exponent, htext, Or.inr (Option.some_ne_none _),
      hvalue.trans hmagnitude⟩

theorem chars_float {x : Binary64} (finite : x.isFinite = true) :
    (Number.float x finite).chars = signed x.isNegative (Decimal.jsonStyle.magnitudeChars x) := by
  have hlt : x.magnitude < FloatFormat.double.infinity := of_decide_eq_true finite
  have hnan : ¬x.isNaN = true := fun hnan => Nat.lt_asymm hlt (of_decide_eq_true hnan)
  have hinfinite : ¬x.isInfinite = true := fun heq => Nat.ne_of_lt hlt (of_decide_eq_true heq)
  rw [Number.chars, Decimal.Style.chars, if_neg hnan, if_neg hinfinite]
  rfl

theorem chars_integer {value : Int}
    (fits : -9223372036854775808 ≤ value ∧ value < 18446744073709551616) :
    (Number.integer value fits).chars = signed (value < 0) (Decimal.digitChars value.natAbs) := by
  simp only [Number.chars, signed, decide_eq_true_eq]

theorem spells_integer (n : ℕ) : Spells (Decimal.digitChars n) (Decimal.digitChars n) [] none := by
  intro text htext
  refine ⟨text, text, ?_, readFraction?_none fun hpoint => ?_, readExponent?_none fun c hc => ?_⟩
  · refine readWhole?_append (Decimal.isDigit_digitChars _) (digitChars_ne_nil _) ?_ htext.noDigit
    rcases Nat.eq_zero_or_pos n with hzero | hpos
    · exact Or.inr (by rw [hzero]; rfl)
    · exact Or.inl (Decimal.head?_digitChars (Nat.ne_of_gt hpos))
  · rcases htext _ hpoint with heq | heq | heq <;> exact absurd heq (by decide)
  · rcases htext c hc with rfl | rfl | rfl <;> exact ⟨by decide, by decide⟩

/-- The text of a number is a sign and the text of a magnitude. -/
theorem exists_spells (n : Number) : ∃ negative text whole fraction exponent,
    n.chars = signed negative text ∧ Spells text whole fraction exponent := by
  cases n with
  | integer value fits => exact ⟨_, _, _, _, _, chars_integer fits, spells_integer _⟩
  | float x finite =>
    obtain ⟨whole, fraction, exponent, htext, -⟩ := spells_magnitude finite
    exact ⟨_, _, _, _, _, chars_float finite, htext⟩

end Json

/-- The number as which the text of a number is read; none if it is too great for a double. -/
def Number.reread? (n : Number) : Option Number := (Json.readNumber? n.chars).map Prod.fst

namespace Json

theorem reread?_of_spells {n : Number} {negative : Bool} {text whole fraction : List Char}
    {exponent : Option Int} (hchars : n.chars = signed negative text)
    (htext : Spells text whole fraction exponent) :
    n.reread? = numberOfParts? negative whole fraction exponent := by
  have hread := readNumber?_of_spells negative htext (show Closes [] from nofun)
  rw [List.append_nil] at hread
  rw [Number.reread?, hchars, hread, Option.map_map]
  exact congrFun Option.map_id _

/-- **A number is read to its end**, whatever may follow a value. -/
theorem readNumber?_chars (n : Number) {rest : List Char} (hrest : Closes rest) :
    readNumber? (n.chars ++ rest) = n.reread?.map (·, rest) := by
  obtain ⟨negative, text, whole, fraction, exponent, hchars, htext⟩ := exists_spells n
  rw [reread?_of_spells hchars htext, hchars, readNumber?_of_spells negative htext hrest]

/-- **An integer is read back.** -/
theorem reread?_integer {value : Int}
    (fits : -9223372036854775808 ≤ value ∧ value < 18446744073709551616) :
    (Number.integer value fits).reread? = some (.integer value fits) := by
  rw [reread?_of_spells (chars_integer fits) (spells_integer _)]
  have hdigits : Nat.ofDigitChars 10 (Decimal.digitChars value.natAbs) 0 = value.natAbs :=
    Decimal.ofDigits_digitChars _
  have hkept : takeSignificand 0 (Decimal.digitChars value.natAbs) = (value.natAbs, []) := by
    rw [takeSignificand_eq (by rw [hdigits]; omega), hdigits]
  -- the sign is that of the number, so it is not minus zero
  have hvalue :
      (if decide (value < 0) = true then -(value.natAbs : Int) else value.natAbs) = value := by
    simp only [decide_eq_true_eq]
    split <;> omega
  have hintegral : (!(decide (value < 0) && decide (value.natAbs = 0))) = true := by
    simp only [Bool.not_eq_true', Bool.and_eq_false_iff, decide_eq_false_iff_not]
    omega
  unfold numberOfParts?
  simp only [hkept, hvalue, hintegral, List.isEmpty_nil, Option.isNone_none, Bool.and_self,
    if_true, Number.ofInt?, dif_pos fits]

/-- **A double with few digits is read back**: those whose digits, written as one number, are less
than `2 ^ 53` and are scaled by a power of ten up to `10 ^ 22`. -/
theorem reread?_float {x : Binary64} (finite : x.isFinite = true) {whole fraction : List Char}
    {exponent : Option Int} {d : Decimal}
    (htext : Spells (Decimal.jsonStyle.magnitudeChars x) whole fraction exponent)
    (hd : Decimal.ofParts whole fraction (exponent.getD 0) = d) (hdigits : d.digits < 2 ^ 53)
    (hlow : -22 ≤ d.exponent) (hhigh : d.exponent ≤ 22) :
    (Number.float x finite).reread? = some (.float x finite) := by
  obtain ⟨whole', fraction', exponent', htext', hpart, hvalue⟩ := spells_magnitude finite
  -- a text is read in one way only
  obtain ⟨rest₁, rest₂, hwhole, hfraction, hexponent⟩ := htext [] nofun
  obtain ⟨rest₁', rest₂', hwhole', hfraction', hexponent'⟩ := htext' [] nofun
  obtain ⟨rfl, rfl⟩ := Prod.mk.inj (Option.some.inj (hwhole.symm.trans hwhole'))
  obtain ⟨rfl, rfl⟩ := Prod.mk.inj (Option.some.inj (hfraction.symm.trans hfraction'))
  obtain ⟨rfl, -⟩ := Prod.mk.inj (Option.some.inj (hexponent.symm.trans hexponent'))
  rw [hd] at hvalue
  rw [reread?_of_spells (chars_float finite) htext,
    numberOfParts?_exact _ hd hdigits hlow hhigh hpart, Decimal.nearest_eq_self hvalue,
    Number.ofBinary64?, dif_pos finite]

end Json

end Wireform
