import Mathlib.Data.Fintype.Basic
import Mathlib.Tactic.FinCases
import Wireform.Calendar.Timestamp

/-!
# Days and their numbers

Days are counted from March on, in eras of 400 years, which are all of one length. Within an era
centuries count 36524 days and groups of four years 1461 of them, but for the leap day that a
century lacks at its end unless it is the last one. Taken apart in this way, the number of a day
tells its year and its place in the year.

* `marchDay`: a day by its place in a year that begins in March.
* `Day.exists_ofNumber`: every number is that of a day that exists.
* `Day.number_ofNumber`: and the number of that day.
-/

namespace Wireform.Timestamp

/-- The day so many days after the first of March of a year. -/
def marchDay (year dayOfYear : Int) : Day :=
  let monthFromMarch := (5 * dayOfYear + 2) / 153
  let month := if monthFromMarch < 10 then monthFromMarch + 3 else monthFromMarch - 9
  ⟨if month ≤ 2 then year + 1 else year, month, dayOfYear - (153 * monthFromMarch + 2) / 5 + 1⟩

/-- A day of an era: a year of the era, and a day of that year. -/
structure DayOfEra (dayOfEra yearOfEra dayOfYear : Int) : Prop where
  year_nonneg : 0 ≤ yearOfEra
  year_lt : yearOfEra < 400
  day_nonneg : 0 ≤ dayOfYear
  day_le : dayOfYear ≤ 365
  /-- Only a year that ends with a leap day has a last day of its own. -/
  leap : dayOfYear = 365 → (yearOfEra + 1) % 4 = 0 ∧
    ((yearOfEra + 1) % 100 ≠ 0 ∨ (yearOfEra + 1) % 400 = 0)
  eq : dayOfEra = 365 * yearOfEra + yearOfEra / 4 - yearOfEra / 100 + dayOfYear

/-- The days of an era by centuries, groups of four years, and years. -/
theorem exists_parts {dayOfEra : Int} (h : 0 ≤ dayOfEra) (hlt : dayOfEra < 146097) :
    ∃ century group year day : Int, dayOfEra = 36524 * century + 1461 * group + 365 * year + day ∧
      0 ≤ century ∧ century ≤ 3 ∧ 0 ≤ group ∧ group ≤ 24 ∧ 0 ≤ year ∧ year ≤ 3 ∧ 0 ≤ day ∧
      (day ≤ 364 ∨ day = 365 ∧ year = 3 ∧ (group < 24 ∨ century = 3)) := by
  -- the last century has one day more, and so has the last of four years
  obtain ⟨century, hcentury⟩ : ∃ century, century = min (dayOfEra / 36524) 3 := ⟨_, rfl⟩
  obtain ⟨group, hgroup⟩ : ∃ group, group = (dayOfEra - 36524 * century) / 1461 := ⟨_, rfl⟩
  obtain ⟨year, hyear⟩ : ∃ year, year = min ((dayOfEra - 36524 * century - 1461 * group) / 365) 3 :=
    ⟨_, rfl⟩
  refine ⟨century, group, year, dayOfEra - 36524 * century - 1461 * group - 365 * year, ?_⟩
  omega

/-- The year of a day of an era, as it is computed. -/
theorem yearOfEra_eq {dayOfEra century group year day : Int}
    (heq : dayOfEra = 36524 * century + 1461 * group + 365 * year + day)
    (hcentury : 0 ≤ century ∧ century ≤ 3) (hgroup : 0 ≤ group ∧ group ≤ 24)
    (hyear : 0 ≤ year ∧ year ≤ 3) (hday : 0 ≤ day)
    (hlast : day ≤ 364 ∨ day = 365 ∧ year = 3 ∧ (group < 24 ∨ century = 3)) :
    (dayOfEra - dayOfEra / 1460 + dayOfEra / 36524 - dayOfEra / 146096) / 365 =
      100 * century + 4 * group + year := by
  -- only the very last day of an era is counted into a century and an era behind it
  have hera : dayOfEra / 146096 = if group = 24 ∧ day = 365 then 1 else 0 := by split <;> omega
  have hcenturies : dayOfEra / 36524 = century + if group = 24 ∧ day = 365 then 1 else 0 :=
    by split <;> omega
  have hgroups : dayOfEra / 1460 =
      25 * century + group + if 1460 ≤ 24 * century + group + 365 * year + day then 1 else 0 :=
      by split <;> omega
  rw [hera, hcenturies, hgroups]
  split <;> split <;> omega

/-- Every day of an era lies in a year of it. -/
theorem dayOfEra_spec {dayOfEra : Int} (h : 0 ≤ dayOfEra) (hlt : dayOfEra < 146097) :
    let yearOfEra := (dayOfEra - dayOfEra / 1460 + dayOfEra / 36524 - dayOfEra / 146096) / 365
    DayOfEra dayOfEra yearOfEra
    (dayOfEra - (365 * yearOfEra + yearOfEra / 4 - yearOfEra / 100)) := by
  obtain ⟨century, group, year, day, heq, hc, hc', hg, hg', hy, hy', hd, hlast⟩ :=
    exists_parts h hlt
  dsimp only
  rw [yearOfEra_eq heq ⟨hc, hc'⟩ ⟨hg, hg'⟩ ⟨hy, hy'⟩ hd hlast]
  have hquarters : (100 * century + 4 * group + year) / 4 = 25 * century + group := by omega
  have hcenturies : (100 * century + 4 * group + year) / 100 = century := by omega
  rw [hquarters, hcenturies]
  constructor <;> omega

/-- The era of a day, and the day of that era. -/
theorem exists_ofNumber_eq (number : Int) : ∃ era dayOfEra yearOfEra dayOfYear : Int,
    number + epochShift = 146097 * era + dayOfEra ∧ DayOfEra dayOfEra yearOfEra dayOfYear ∧
      Day.ofNumber number = marchDay (yearOfEra + era * 400) dayOfYear := by
  have hday := dayOfEra_spec (Int.emod_nonneg (number + epochShift) (by decide))
    (Int.emod_lt_of_pos (number + epochShift) (by decide : (0 : Int) < 146097))
  exact ⟨_, _, _, _, (Int.mul_ediv_add_emod (number + epochShift) 146097).symm, hday, rfl⟩

/-! ### Months -/

/-- A month counted from March. -/
theorem exists_month {dayOfYear : Int} (h : 0 ≤ dayOfYear) (hle : dayOfYear ≤ 365) :
    ∃ m : Fin 12, (5 * dayOfYear + 2) / 153 = (m.val : Int) := by
  have hlow : 0 ≤ (5 * dayOfYear + 2) / 153 := by omega
  exact ⟨⟨((5 * dayOfYear + 2) / 153).toNat, by omega⟩, (Int.toNat_of_nonneg hlow).symm⟩

/-- A leap year of an era. -/
theorem DayOfEra.isLeapYear {dayOfEra yearOfEra : Int}
    (h : DayOfEra dayOfEra yearOfEra 365) (era : Int) :
    isLeapYear (yearOfEra + era * 400 + 1) = true := by
  have hleap := h.leap rfl
  unfold Timestamp.isLeapYear
  simp only [Bool.and_eq_true, Bool.or_eq_true, decide_eq_true_eq]
  omega

namespace Day

/-- A day of a year that begins in March exists, the last one if the year ends with a leap day. -/
theorem exists_marchDay {year dayOfYear : Int} (h : 0 ≤ dayOfYear) (hle : dayOfYear ≤ 365)
    (hleap : dayOfYear = 365 → isLeapYear (year + 1) = true) :
    (marchDay year dayOfYear).exists = true := by
  obtain ⟨m, hm⟩ := exists_month h hle
  unfold marchDay Day.exists monthLength
  simp only [Bool.and_eq_true, decide_eq_true_eq]
  -- only February, which comes last, asks which year it is
  rcases Nat.lt_or_eq_of_le (Nat.le_of_lt_succ m.isLt) with hother | hlast
  · rw [hm]
    fin_cases m <;> simp at hother hm ⊢ <;> omega
  · rw [show (5 * dayOfYear + 2) / 153 = 11 by omega]
    rcases (by omega : dayOfYear = 365 ∨ dayOfYear ≤ 364) with rfl | hday
    · simp [hleap rfl]
    · simp
      split <;> omega

/-- The number of a day is counted from the first of March of its year. -/
theorem number_marchDay {year dayOfYear : Int} (h : 0 ≤ dayOfYear) (hle : dayOfYear ≤ 365) :
    (marchDay year dayOfYear).number =
      year / 400 * 146097 + (year % 400 * 365 + year % 400 / 4 - year % 400 / 100 + dayOfYear) -
        epochShift := by
  obtain ⟨m, hm⟩ := exists_month h hle
  unfold marchDay Day.number
  simp only [hm]
  fin_cases m <;> simp <;> omega

/-- **Every number of days is that of a day that exists.** -/
theorem exists_ofNumber (number : Int) : (ofNumber number).exists = true := by
  obtain ⟨era, dayOfEra, yearOfEra, dayOfYear, -, hday, heq⟩ := exists_ofNumber_eq number
  rw [heq]
  exact exists_marchDay hday.day_nonneg hday.day_le fun hlast => (hlast ▸ hday).isLeapYear era

/-- **The day with a number has that number.** -/
@[simp] theorem number_ofNumber (number : Int) : (ofNumber number).number = number := by
  obtain ⟨era, dayOfEra, yearOfEra, dayOfYear, hnumber, hday, heq⟩ := exists_ofNumber_eq number
  have hera : (yearOfEra + era * 400) / 400 = era ∧ (yearOfEra + era * 400) % 400 = yearOfEra := by
    have := hday.year_nonneg
    have := hday.year_lt
    omega
  rw [heq, number_marchDay hday.day_nonneg hday.day_le, hera.1, hera.2]
  have := hday.eq
  omega

/-- The month and the day of a day that exists. -/
theorem parts {d : Day} (h : d.exists = true) :
    1 ≤ d.month ∧ d.month ≤ 12 ∧ 1 ≤ d.day ∧ d.day ≤ 31 := by
  have hlength : monthLength d.year d.month ≤ 31 := by
    unfold monthLength
    split_ifs <;> decide
  simp only [Day.exists, Bool.and_eq_true, decide_eq_true_eq] at h
  omega

/-- A day of a year of four digits is not far from the start of 1970. -/
theorem number_bounds {d : Day} (h : d.exists = true) (hyear : 0 ≤ d.year) (hle : d.year ≤ 9999) :
    -1000000 ≤ d.number ∧ d.number ≤ 4000000 := by
  have hparts := parts h
  unfold Day.number epochShift
  simp only
  split <;> omega

end Day

end Wireform.Timestamp
