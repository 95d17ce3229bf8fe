import Wireform.Proofs.Calendar.Day
import Wireform.Proofs.Json.Numbers

/-!
# Instants and their texts

The text of an instant is read part by part: each part has as many digits as are asked for, and a
day and a time of day are put together as they were taken apart. A text can only name a year of four
digits, while an instant may be in any year that has a text at all.

* `Timestamp.parse?_bounds`: a text stands for an instant that has a text.
* `Timestamp.parse?_text?`: the text of an instant is read back as that instant,
  unless its year has a sign.
-/

namespace Wireform

/-- So many digits stay below that power of ten. -/
theorem ofDigits_lt {digits : List Char} (h : ∀ c ∈ digits, c.isDigit = true) :
    ofDigits digits < 10 ^ digits.length := by
  induction digits using List.reverseRecOn with
  | nil => exact Nat.one_pos
  | append_singleton digits c ih =>
    have hmore := ih fun d hd => h d (List.mem_append_left _ hd)
    have hc : ofDigits [c] < 10 := by
      have hdigit := h c (List.mem_append_right _ List.mem_cons_self)
      simp only [Char.isDigit, Bool.and_eq_true, decide_eq_true_eq] at hdigit
      have hle : c.toNat ≤ 57 := hdigit.2
      change 10 * 0 + (c.toNat - '0'.toNat) < 10
      have : '0'.toNat = 48 := rfl
      omega
    rw [ofDigits_append, List.length_append, List.length_singleton, Nat.pow_one,
      Nat.pow_succ _ digits.length]
    omega

namespace Timestamp

/-! ### Numbers of so many digits -/

theorem isDigit_padded (width n : Nat) : ∀ c ∈ padded width n, c.isDigit = true := by
  intro c hc
  rcases List.mem_append.1 hc with hzero | hdigit
  · rw [List.eq_of_mem_replicate hzero]
    rfl
  · exact Decimal.isDigit_digitChars n c hdigit

theorem length_padded {width n : Nat} (hwidth : 0 < width) (h : n < 10 ^ width) :
    (padded width n).length = width := by
  have hle : (Decimal.digitChars n).length ≤ width := (digitCount_le_iff hwidth).2 h
  simp only [padded, List.length_append, List.length_replicate]
  omega

theorem ofDigits_padded (width n : Nat) : ofDigits (padded width n) = n := by
  simp only [padded]
  rw [ofDigits_append, ofDigits_zeros, Decimal.ofDigits_digitChars, Nat.zero_mul, Nat.zero_add]

/-- A number is read back from as many digits as it was written with. -/
theorem digits?_padded {width n : Nat} (hwidth : 0 < width) (h : n < 10 ^ width)
    (rest : List Char) :
    digits? width (padded width n ++ rest) = some (n, rest) := by
  have hlength := length_padded hwidth h
  have hall : (padded width n).all Char.isDigit = true :=
    List.all_eq_true.2 (isDigit_padded width n)
  simp only [digits?]
  rw [List.take_left' hlength, List.drop_left' hlength, if_pos ⟨hlength, hall⟩, ofDigits_padded]

theorem digits?_lt {count : Nat} {s rest : List Char} {n : Nat}
    (h : digits? count s = some (n, rest)) :
    n < 10 ^ count := by
  simp only [digits?] at h
  split at h
  next hfound =>
    obtain ⟨rfl, -⟩ := Prod.mk.inj (Option.some.inj h)
    simpa only [hfound.1] using ofDigits_lt (List.all_eq_true.1 hfound.2)
  next => nomatch h

/-- No digits are read where something else stands in front. -/
theorem digits?_none {count : Nat} {c : Char} {rest : List Char} (h : c.isDigit = false) :
    digits? (count + 1) (c :: rest) = none := by
  simp only [digits?]
  rw [if_neg]
  rintro ⟨-, hall⟩
  rw [List.take_succ_cons, List.all_cons, h] at hall
  nomatch hall

/-! ### Days, times and offsets -/

/-- A day is read back if its year has four digits. -/
theorem day?_padded {d : Day} (hexists : d.exists = true) (hyear : 0 ≤ d.year) (hle : d.year ≤ 9999)
    (rest : List Char) :
    day? (padded 4 d.year.natAbs ++
      '-' :: (padded 2 d.month.toNat ++ '-' :: (padded 2 d.day.toNat ++ rest))) =
      some (d, rest) := by
  obtain ⟨hmonth, hmonth', hday, hday'⟩ := Day.parts hexists
  have hsame : (⟨d.year.natAbs, d.month.toNat, d.day.toNat⟩ : Day) = d := by
    rw [Int.natAbs_of_nonneg hyear, Int.toNat_of_nonneg (by omega), Int.toNat_of_nonneg (by omega)]
  simp only [day?, char?]
  rw [digits?_padded (by decide) (by omega)]
  simp only [Option.bind_eq_bind, Option.bind_some, if_true]
  rw [digits?_padded (by decide) (by omega)]
  simp only [Option.bind_some, if_true]
  rw [digits?_padded (by decide) (by omega)]
  simp only [Option.bind_some, hsame, hexists, if_true]

/-- Milliseconds are read back. -/
theorem milliseconds?_padded {n : Nat} (h : n < 1000) {rest : List Char} (hrest : NoDigit rest) :
    milliseconds? ('.' :: (padded 3 n ++ rest)) = some (n, rest) := by
  have hlength : (padded 3 n).length = 3 := length_padded (by decide) h
  simp only [milliseconds?]
  rw [takeDigits_append (isDigit_padded 3 n) hrest]
  split
  next heq =>
    rw [(Prod.mk.inj heq).1] at hlength
    nomatch hlength
  next heq =>
    obtain ⟨rfl, rfl⟩ := Prod.mk.inj heq
    rw [List.take_left' hlength, ofDigits_padded]

/-- A time of day is read back. -/
theorem time?_padded {time : Nat} (h : time < 86400000) {rest : List Char} (hrest : NoDigit rest) :
    time? (padded 2 (time / 3600000) ++ ':' :: (padded 2 (time / 60000 % 60) ++
      ':' :: (padded 2 (time / 1000 % 60) ++ '.' :: (padded 3 (time % 1000) ++ rest)))) =
        some (time, rest) := by
  have hparts : ((time / 3600000 * 60 + time / 60000 % 60) * 60 + time / 1000 % 60) * 1000 +
      time % 1000 = time := by
    omega
  have hranges : time / 3600000 ≤ 23 ∧ time / 60000 % 60 ≤ 59 ∧ time / 1000 % 60 ≤ 60 := by omega
  simp only [time?, char?]
  rw [digits?_padded (by decide) (by omega)]
  simp only [Option.bind_eq_bind, Option.bind_some, if_true]
  rw [digits?_padded (by decide) (by omega)]
  simp only [Option.bind_some, if_true]
  rw [digits?_padded (by decide) (by omega)]
  simp only [Option.bind_some]
  rw [milliseconds?_padded (by omega) hrest]
  simp only [Option.bind_some, hparts, hranges, and_self, if_true]

/-! ### What a text can stand for -/

theorem day?_spec {s rest : List Char} {d : Day} (h : day? s = some (d, rest)) :
    d.exists = true ∧ 0 ≤ d.year ∧ d.year ≤ 9999 := by
  simp only [day?, Option.bind_eq_bind, Option.bind_eq_some_iff] at h
  obtain ⟨⟨year, s₁⟩, hyear, s₂, -, ⟨month, s₃⟩, -, s₄, -, ⟨day, s₅⟩, -, h⟩ := h
  have := digits?_lt hyear
  split at h
  next hexists =>
    obtain ⟨rfl, -⟩ := Prod.mk.inj (Option.some.inj h)
    exact ⟨hexists, by dsimp only; omega, by dsimp only; omega⟩
  next => nomatch h

theorem milliseconds?_lt {s rest : List Char} {n : Nat}
    (h : milliseconds? s = some (n, rest)) : n < 1000 := by
  unfold milliseconds? at h
  split at h
  next fraction =>
    split at h
    next => nomatch h
    next digits rest' hne heq =>
      obtain ⟨rfl, -⟩ := Prod.mk.inj (Option.some.inj h)
      have hdigits : ∀ c ∈ digits, c.isDigit = true := by
        rw [takeDigits, List.span_eq_takeWhile_dropWhile] at heq
        rw [← (Prod.mk.inj heq).1]
        exact List.all_eq_true.1 List.all_takeWhile
      have hzeros : ∀ c ∈ ['0', '0'], c.isDigit = true := List.all_eq_true.1 rfl
      have hlt : ofDigits ((digits ++ ['0', '0']).take 3) <
          10 ^ ((digits ++ ['0', '0']).take 3).length :=
        ofDigits_lt
          fun c hc => (List.mem_append.1 (List.mem_of_mem_take hc)).elim (hdigits c) (hzeros c)
      exact Nat.lt_of_lt_of_le hlt (Nat.pow_le_pow_right (by decide) (List.length_take_le 3 _))
  next =>
    obtain ⟨rfl, -⟩ := Prod.mk.inj (Option.some.inj h)
    decide

theorem time?_lt {s rest : List Char} {time : Nat} (h : time? s = some (time, rest)) :
    time < 86401000 := by
  simp only [time?, Option.bind_eq_bind, Option.bind_eq_some_iff] at h
  obtain ⟨⟨hour, s₁⟩, -, s₂, -, ⟨minute, s₃⟩, -, s₄, -, ⟨second, s₅⟩, -, ⟨fraction, s₆⟩,
    hfraction, h⟩ := h
  have := milliseconds?_lt hfraction
  split at h
  next hranges =>
    obtain ⟨rfl, -⟩ := Prod.mk.inj (Option.some.inj h)
    omega
  next => nomatch h

theorem sign?_spec {s rest : List Char} {sign : Int} (h : sign? s = some (sign, rest)) :
    sign = 1 ∨ sign = -1 := by
  unfold sign? at h
  split at h
  · exact .inl (Prod.mk.inj (Option.some.inj h)).1.symm
  · exact .inr (Prod.mk.inj (Option.some.inj h)).1.symm
  · exact .inr (Prod.mk.inj (Option.some.inj h)).1.symm
  · nomatch h

theorem offset?_bounds {s rest : List Char} {offset : Int} (h : offset? s = some (offset, rest)) :
    -1440 < offset ∧ offset < 1440 := by
  unfold offset? at h
  split at h
  · obtain ⟨rfl, -⟩ := Prod.mk.inj (Option.some.inj h)
    decide
  · obtain ⟨rfl, -⟩ := Prod.mk.inj (Option.some.inj h)
    decide
  · simp only [Option.bind_eq_bind, Option.bind_eq_some_iff] at h
    obtain ⟨⟨sign, s₁⟩, hs, ⟨hours, s₂⟩, -, s₃, -, ⟨minutes, s₄⟩, -, h⟩ := h
    split at h
    next hranges =>
      obtain ⟨rfl, -⟩ := Prod.mk.inj (Option.some.inj h)
      rcases sign?_spec hs with rfl | rfl <;> omega
    next => nomatch h

/-- **A text stands for an instant that has a text.** -/
theorem parse?_bounds {text : String} {millis : Int} (h : parse? text = some millis) :
    first ≤ millis ∧ millis ≤ last := by
  simp only [parse?, Option.bind_eq_bind, Option.bind_eq_some_iff] at h
  obtain ⟨⟨day, s₁⟩, hday, s₂, -, ⟨time, s₃⟩, htime, ⟨offset, s₄⟩, hoffset, h⟩ := h
  dsimp only at htime hoffset h
  obtain ⟨hexists, hyear, hle⟩ := day?_spec hday
  have := Day.number_bounds hexists hyear hle
  have := time?_lt htime
  have := offset?_bounds hoffset
  split at h
  next =>
    obtain rfl := Option.some.inj h
    unfold first last dayMillis
    omega
  next => nomatch h

/-! ### The text of an instant -/

/-- The year of an instant. -/
def year (millis : Int) : Int := (Day.ofNumber (millis / dayMillis)).year

/-- A time of day and its day. -/
theorem number_mul_add (millis : Int) :
    (Day.ofNumber (millis / dayMillis)).number * dayMillis +
      ((millis % dayMillis).toNat : Nat) = millis := by
  have hnonneg : 0 ≤ millis % dayMillis := Int.emod_nonneg millis (by decide)
  rw [Day.number_ofNumber, Int.toNat_of_nonneg hnonneg]
  exact Int.ediv_mul_add_emod millis dayMillis

/-- **The text of an instant of a year of four digits is read back as that instant.** -/
theorem parse?_text? {millis : Int} {text : String} (h : text? millis = some text)
    (hyear : 0 ≤ year millis) (hle : year millis ≤ 9999) : parse? text = some millis := by
  simp only [text?] at h
  split at h
  next =>
    obtain rfl := Option.some.inj h
    have htime : (millis % dayMillis).toNat < 86400000 := by
      have : millis % dayMillis < dayMillis := Int.emod_lt_of_pos millis (by decide)
      unfold dayMillis at this ⊢
      omega
    have hchars : yearChars (year millis) = padded 4 (year millis).natAbs := by
      unfold yearChars
      rw [if_neg (by omega), if_neg (by omega), List.nil_append]
    simp only [parse?, String.toList_ofList, List.append_assoc, List.cons_append]
    rw [show (Day.ofNumber (millis / dayMillis)).year = year millis from rfl, hchars]
    rw [year, day?_padded (Day.exists_ofNumber _) hyear hle]
    simp only [Option.bind_eq_bind, Option.bind_some, separator?]
    rw [time?_padded htime fun c hc => by cases hc; rfl]
    simp only [Option.bind_some, offset?, List.isEmpty_nil, if_true, Int.zero_mul,
      Int.sub_zero, number_mul_add]
  next => nomatch h

/-- **The text of an instant of any other year is not read at all.** -/
theorem parse?_text?_none {millis : Int} {text : String} (h : text? millis = some text)
    (hyear : ¬(0 ≤ year millis ∧ year millis ≤ 9999)) : parse? text = none := by
  simp only [text?] at h
  split at h
  next =>
    obtain rfl := Option.some.inj h
    obtain ⟨sign, hsign, hchars⟩ : ∃ sign : Char, sign.isDigit = false ∧
        yearChars (year millis) = sign :: padded 4 (year millis).natAbs := by
      unfold yearChars
      rcases Int.lt_or_le (year millis) 0 with hneg | hpos
      · exact ⟨'-', rfl, by rw [if_pos hneg]; rfl⟩
      · exact ⟨'+', rfl, by rw [if_neg (by omega), if_pos (by omega)]; rfl⟩
    simp only [parse?, day?, String.toList_ofList, List.append_assoc]
    rw [show (Day.ofNumber (millis / dayMillis)).year = year millis from rfl, hchars,
      List.cons_append, digits?_none hsign]
    rfl
  next => nomatch h

end Timestamp

end Wireform
