import Mathlib.Data.Nat.Dist
import Mathlib.Tactic.Ring
import Wireform.Proofs.Binary64.Whole

/-!
# Rounding to a format

A quotient is rounded to the nearest magnitude of a format. Only the value of the quotient
counts, not how it is written; no other finite magnitude is nearer; and of two that are
equally near the one with the even word is taken.

* `nearest_eq`: quotients of the same value are rounded alike.
* `nearest_le_dist`: no finite magnitude is nearer.
* `nearest_even`: of two equally near ones the even one is taken.
-/

namespace Wireform

/-! ### Quotients -/

theorem roundHalfEven_scale (num den : ℕ) {k : ℕ} (hk : 0 < k) :
    roundHalfEven (num * k) (den * k) = roundHalfEven num den := by
  have hless : ∀ a b : ℕ, a * k < b * k ↔ a < b := fun a b => Nat.mul_lt_mul_right hk
  unfold roundHalfEven
  dsimp only
  rw [Nat.mul_div_mul_right _ _ hk, Nat.mul_mod_mul_right, ← Nat.mul_assoc]
  simp only [hless]

theorem roundHalfEven_le (num den : ℕ) : roundHalfEven num den ≤ num / den + 1 := by
  unfold roundHalfEven
  dsimp only
  split
  · exact Nat.le_succ _
  · split
    · exact Nat.le_refl _
    · omega

/-- Whether a quotient below an even number is rounded up to it. -/
theorem roundHalfEven_lt_iff {num den k : ℕ} (hden : 0 < den) (h : num / den < k)
    (heven : k % 2 = 0) :
    roundHalfEven num den < k ↔ 2 * num < (2 * k - 1) * den := by
  have hsplit := Nat.div_add_mod' num den
  have hrest := Nat.mod_lt num hden
  obtain ⟨gap, rfl⟩ : ∃ gap, k = num / den + gap + 1 := ⟨k - num / den - 1, by omega⟩
  have htwice : (2 * (num / den + gap + 1) - 1) * den =
      2 * (num / den * den) + 2 * (gap * den) + den := by
    rw [show 2 * (num / den + gap + 1) - 1 = 2 * (num / den) + 2 * gap + 1 by omega]
    ring
  have hgap : gap = 0 ∨ 0 < gap ∧ den ≤ gap * den :=
    (Nat.eq_zero_or_pos gap).imp_right fun hpos => ⟨hpos, Nat.le_mul_of_pos_left _ hpos⟩
  unfold roundHalfEven
  dsimp only
  rw [htwice]
  -- if the even number is the next one, a half goes up to it
  rcases hgap with rfl | ⟨hpos, hgap⟩
  · split
    · omega
    · split <;> omega
  · split
    · omega
    · split <;> omega

/-- A multiple other than the two around a number is no nearer than either of them. -/
theorem multiple_cases (k q d : ℕ) :
    k = q ∨ k = q + 1 ∨ (k + 1) * d ≤ q * d ∨ (q + 2) * d ≤ k * d := by
  rcases Nat.lt_or_ge k q with hlow | hlow
  · exact Or.inr (Or.inr (Or.inl (Nat.mul_le_mul_right d hlow)))
  · rcases Nat.lt_or_ge (q + 1) k with hhigh | hhigh
    · exact Or.inr (Or.inr (Or.inr (Nat.mul_le_mul_right d hhigh)))
    · omega

/-- **The rounded quotient gives the nearest multiple**, and of two equally near ones the even. -/
theorem roundHalfEven_nearest (num k : ℕ) {den : ℕ} (hden : 0 < den) :
    Nat.dist (roundHalfEven num den * den) num ≤ Nat.dist (k * den) num ∧
      (Nat.dist (roundHalfEven num den * den) num = Nat.dist (k * den) num →
        k ≠ roundHalfEven num den → roundHalfEven num den % 2 = 0) := by
  have hsplit := Nat.div_add_mod num den
  have hrest := Nat.mod_lt num hden
  rw [Nat.mul_comm] at hsplit
  have hcases := multiple_cases k (num / den) den
  have hone : (num / den + 1) * den = num / den * den + den := Nat.succ_mul _ _
  have htwo : (num / den + 2) * den = num / den * den + 2 * den := Nat.add_mul _ _ _
  have hnext : (k + 1) * den = k * den + den := Nat.succ_mul _ _
  unfold roundHalfEven
  dsimp only
  generalize num / den = q at *
  unfold Nat.dist
  split
  · rcases hcases with rfl | rfl | hk | hk <;> constructor <;> intros <;> omega
  · split
    · rcases hcases with rfl | rfl | hk | hk <;> constructor <;> intros <;> omega
    · -- halfway between the two: the even one
      rcases Nat.mod_two_eq_zero_or_one q with heven | hodd
      · rw [heven, Nat.add_zero]
        rcases hcases with rfl | rfl | hk | hk <;> constructor <;> intros <;> omega
      · rw [hodd]
        rcases hcases with rfl | rfl | hk | hk <;> constructor <;> intros <;> omega

namespace FloatFormat

variable (f : FloatFormat)

/-- Rounding depends on the value of a quotient only. -/
theorem nearest_scale (num den : ℕ) {k : ℕ} (hk : 0 < k) :
    f.nearest (num * k) (den * k) = f.nearest num den := by
  unfold nearest
  dsimp only
  rw [Nat.mul_div_mul_right _ _ hk, Nat.mul_right_comm, roundHalfEven_scale _ _ hk]

theorem nearest_eq {num den num' den' : ℕ} (hden : 0 < den) (hden' : 0 < den')
    (h : num * den' = num' * den) : f.nearest num den = f.nearest num' den' := by
  rw [← f.nearest_scale num den hden', ← f.nearest_scale num' den' hden, h, Nat.mul_comm den]

/-! ### Magnitudes -/

/-- The units of a word that has been put together from an exponent and the significant bits. -/
theorem units_shift_add {shift m : ℕ} (hfull : shift = 0 ∨ f.fractions ≤ m)
    (hm : m ≤ 2 * f.fractions) : f.units (shift * f.fractions + m) = m * 2 ^ shift := by
  rcases Nat.lt_or_ge m f.fractions with hlow | hlow
  · obtain rfl : shift = 0 := by omega
    rw [Nat.zero_mul, Nat.zero_add, f.units_of_lt hlow, Nat.pow_zero, Nat.mul_one]
  · rcases Nat.lt_or_ge m (2 * f.fractions) with hhigh | hhigh
    · obtain ⟨fraction, rfl⟩ := Nat.exists_eq_add_of_le hlow
      have hword : shift * f.fractions + (f.fractions + fraction) =
          (shift + 1) * f.fractions + fraction := by ring
      rw [hword, f.units_mul_add (by omega)]
    · -- all bits are set and carried over into the exponent
      obtain rfl : m = 2 * f.fractions := by omega
      have hword : shift * f.fractions + 2 * f.fractions = (shift + 1 + 1) * f.fractions + 0 := by
        ring
      rw [hword, f.units_mul_add f.fractions_pos]
      ring

/-- From some exponent on, magnitudes are multiples of the power that belongs to it. -/
theorem units_multiple {word shift : ℕ} (h : shift = 0 ∨ f.fractions * 2 ^ shift ≤ f.units word) :
    ∃ k, f.units word = k * 2 ^ shift := by
  rcases Nat.eq_zero_or_pos shift with rfl | hshift
  · exact ⟨f.units word, by rw [Nat.pow_zero, Nat.mul_one]⟩
  have hge : f.fractions * 2 ^ shift ≤ f.units word := h.resolve_left (by omega)
  have hfraction := Nat.mod_lt word f.fractions_pos
  unfold units at hge ⊢
  dsimp only at hge ⊢
  split at hge
  · -- below the first exponent code there is not so great a magnitude
    have : f.fractions * 2 ^ 0 ≤ f.fractions * 2 ^ shift :=
      Nat.mul_le_mul_left _ (Nat.pow_le_pow_right (by decide) (Nat.zero_le _))
    omega
  · next hcode =>
    rw [if_neg hcode]
    have hexponent : shift ≤ word / f.fractions - 1 := by
      by_contra hlt
      have hpow : 2 ^ (word / f.fractions - 1 + 1) ≤ 2 ^ shift :=
        Nat.pow_le_pow_right (by decide) (by omega)
      have hmul := Nat.mul_le_mul_left f.fractions hpow
      have hless : (f.fractions + word % f.fractions) * 2 ^ (word / f.fractions - 1) <
          (2 * f.fractions) * 2 ^ (word / f.fractions - 1) :=
        Nat.mul_lt_mul_of_pos_right (by omega) (Nat.two_pow_pos _)
      have hsame : (2 * f.fractions) * 2 ^ (word / f.fractions - 1) =
          f.fractions * 2 ^ (word / f.fractions - 1 + 1) := by ring
      change _ ≤ (f.fractions + word % f.fractions) * 2 ^ (word / f.fractions - 1) at hge
      omega
    refine ⟨(f.fractions + word % f.fractions) * 2 ^ (word / f.fractions - 1 - shift), ?_⟩
    rw [Nat.mul_assoc, ← Nat.pow_add, Nat.sub_add_cancel hexponent]
    rfl

/-- Greater words are greater magnitudes. -/
theorem units_strictMono : StrictMono f.units := by
  refine strictMono_nat_of_lt_succ fun word => ?_
  have hsplit := Nat.div_add_mod' word f.fractions
  have hfraction := Nat.mod_lt word f.fractions_pos
  generalize word / f.fractions = code at hsplit
  generalize word % f.fractions = fraction at hsplit hfraction
  subst hsplit
  rcases Nat.lt_or_ge (fraction + 1) f.fractions with hlt | hge
  · -- the exponent stays as it is
    rcases Nat.eq_zero_or_pos code with rfl | hcode
    · rw [Nat.zero_mul, Nat.zero_add, f.units_of_lt hfraction, f.units_of_lt hlt]
      exact Nat.lt_succ_self _
    · obtain ⟨code, rfl⟩ := Nat.exists_eq_add_of_le' hcode
      rw [Nat.add_assoc, f.units_mul_add hfraction, f.units_mul_add hlt]
      exact Nat.mul_lt_mul_of_pos_right (by omega) (Nat.two_pow_pos _)
  · have hnext : code * f.fractions + fraction + 1 = (code + 1) * f.fractions + 0 := by
      rw [Nat.succ_mul]
      omega
    rw [hnext, f.units_mul_add f.fractions_pos, Nat.add_zero]
    rcases Nat.eq_zero_or_pos code with rfl | hcode
    · rw [Nat.zero_mul, Nat.zero_add, f.units_of_lt hfraction, Nat.pow_zero, Nat.mul_one]
      exact hfraction
    · obtain ⟨code, rfl⟩ := Nat.exists_eq_add_of_le' hcode
      rw [f.units_mul_add hfraction, Nat.pow_succ', ← Nat.mul_assoc]
      exact Nat.mul_lt_mul_of_pos_right (by omega) (Nat.two_pow_pos _)

/-- What a quotient is rounded to, in its parts: the significant bits fill the fraction field and
the bit above it, unless there are too few. -/
structure Rounds (num den shift : ℕ) : Prop where
  pos : 0 < den
  full : shift = 0 ∨ f.fractions ≤ num / (den * 2 ^ shift)
  lt : num / (den * 2 ^ shift) < 2 * f.fractions
  word : f.nearest num den =
    min (shift * f.fractions + roundHalfEven num (den * 2 ^ shift)) f.infinity

theorem exists_rounds (num : ℕ) {den : ℕ} (hden : 0 < den) : ∃ shift, f.Rounds num den shift := by
  refine ⟨Nat.log2 (num / den) - f.fractionBits, hden, ?_, ?_, rfl⟩
  · rw [← Nat.div_div_eq_div_mul]
    rcases Nat.lt_or_ge f.fractionBits (Nat.log2 (num / den)) with hlt | hge
    · have hne : num / den ≠ 0 := by
        intro hzero
        rw [hzero, Nat.log2_zero] at hlt
        omega
      refine Or.inr ((Nat.le_div_iff_mul_le (Nat.two_pow_pos _)).2 ?_)
      calc f.fractions * 2 ^ (Nat.log2 (num / den) - f.fractionBits)
          = 2 ^ (f.fractionBits + (Nat.log2 (num / den) - f.fractionBits)) :=
          (Nat.pow_add 2 _ _).symm
        _ = 2 ^ Nat.log2 (num / den) := by rw [Nat.add_sub_cancel' (Nat.le_of_lt hlt)]
        _ ≤ num / den := Nat.log2_self_le hne
    · exact Or.inl (by omega)
  · rw [← Nat.div_div_eq_div_mul, Nat.div_lt_iff_lt_mul (Nat.two_pow_pos _)]
    calc num / den < 2 ^ (Nat.log2 (num / den) + 1) := Nat.lt_log2_self
      _ ≤ 2 ^ (f.fractionBits + 1 + (Nat.log2 (num / den) - f.fractionBits)) :=
        Nat.pow_le_pow_right (by decide) (by omega)
      _ = 2 * f.fractions * 2 ^ (Nat.log2 (num / den) - f.fractionBits) := by
        rw [Nat.pow_add, Nat.pow_succ']
        rfl

variable {f} {num den shift : ℕ}

/-- What a quotient is rounded to, if that is finite. -/
theorem Rounds.units_nearest (h : f.Rounds num den shift)
    (hfinite : f.nearest num den < f.infinity) :
    f.nearest num den = shift * f.fractions + roundHalfEven num (den * 2 ^ shift) ∧
      f.units (f.nearest num den) = roundHalfEven num (den * 2 ^ shift) * 2 ^ shift := by
  have hword : f.nearest num den = shift * f.fractions + roundHalfEven num (den * 2 ^ shift) := by
    rw [h.word] at hfinite ⊢
    omega
  have hlow := le_roundHalfEven num (den * 2 ^ shift)
  have hhigh := roundHalfEven_le num (den * 2 ^ shift)
  refine ⟨hword, ?_⟩
  rw [hword, f.units_shift_add (h.full.imp_right (Nat.le_trans · hlow)) (by have := h.lt; omega)]

/-- **No finite magnitude is nearer** to a quotient than the one that it is rounded to; and of two
that are equally near the one with the even word is taken. -/
theorem nearest_le_dist (hden : 0 < den) (hbits : 0 < f.fractionBits)
    (hfinite : f.nearest num den < f.infinity) (word : ℕ) :
    Nat.dist (f.units (f.nearest num den) * den) num ≤ Nat.dist (f.units word * den) num ∧
      (Nat.dist (f.units (f.nearest num den) * den) num = Nat.dist (f.units word * den) num →
        f.units word ≠ f.units (f.nearest num den) → f.nearest num den % 2 = 0) := by
  obtain ⟨shift, h⟩ := f.exists_rounds num hden
  obtain ⟨hword, hunits⟩ := h.units_nearest hfinite
  have hpos : 0 < den * 2 ^ shift := Nat.mul_pos hden (Nat.two_pow_pos _)
  have hscale : ∀ k : ℕ, k * 2 ^ shift * den = k * (den * 2 ^ shift) := fun k => by ring
  have heven : roundHalfEven num (den * 2 ^ shift) % 2 = 0 → f.nearest num den % 2 = 0 := by
    intro hround
    have hfractions : f.fractions % 2 = 0 := by
      obtain ⟨bits, hb⟩ := Nat.exists_eq_add_of_le' hbits
      rw [fractions, hb]
      exact Nat.mod_eq_zero_of_dvd (Dvd.intro_left (2 ^ bits) rfl)
    rw [hword, Nat.add_mod, Nat.mul_mod, hfractions, hround]
    omega
  rw [hunits, hscale]
  by_cases hlarge : shift = 0 ∨ f.fractions * 2 ^ shift ≤ f.units word
  · -- both are multiples of the same power
    obtain ⟨k, hk⟩ := f.units_multiple hlarge
    obtain ⟨hle, htie⟩ := roundHalfEven_nearest num k hpos
    rw [hk, hscale]
    refine ⟨hle, fun heq hne => heven (htie heq fun hsame => hne (by rw [hsame]))⟩
  · -- the least number with this exponent is nearer than all below it
    obtain ⟨hshift, hless⟩ := not_or.1 hlarge
    have hless : f.units word * den < f.fractions * (den * 2 ^ shift) := by
      rw [← hscale]
      exact Nat.mul_lt_mul_of_pos_right (Nat.not_le.1 hless) hden
    have hbelow : f.fractions * (den * 2 ^ shift) ≤ num :=
      (Nat.le_div_iff_mul_le hpos).1 (h.full.resolve_left hshift)
    have hle := (roundHalfEven_nearest num f.fractions hpos).1
    unfold Nat.dist at hle ⊢
    constructor <;> intros <;> omega

/-- **A quotient is too great** from the middle between the greatest finite magnitude and the
next power of two on. -/
theorem nearest_lt_infinity_iff (hden : 0 < den) {top : ℕ}
    (htop : f.exponentCodes = top + 3) : f.nearest num den < f.infinity ↔
      2 * num < (4 * f.fractions - 1) * (den * 2 ^ top) := by
  obtain ⟨shift, h⟩ := f.exists_rounds num hden
  have hpos : 0 < den * 2 ^ shift := Nat.mul_pos hden (Nat.two_pow_pos _)
  have hinfinity : f.infinity = top * f.fractions + 2 * f.fractions := by
    rw [infinity, htop, Nat.add_sub_assoc (by decide), Nat.add_mul]
  have hfractions := f.fractions_pos
  have hlow := le_roundHalfEven num (den * 2 ^ shift)
  have hhigh := roundHalfEven_le num (den * 2 ^ shift)
  have hlt := h.lt
  rw [h.word, hinfinity]
  rcases Nat.lt_trichotomy shift top with hless | rfl | hgreater
  · -- one power lower there is room for all bits
    have hshift : (shift + 1) * f.fractions ≤ top * f.fractions := Nat.mul_le_mul_right _ hless
    have hpow : den * 2 ^ (shift + 1) ≤ den * 2 ^ top :=
      Nat.mul_le_mul_left _ (Nat.pow_le_pow_right (by decide) hless)
    have hnum : num < 2 * f.fractions * (den * 2 ^ shift) := (Nat.div_lt_iff_lt_mul hpos).1 hlt
    have hsum : (shift + 1) * f.fractions = shift * f.fractions + f.fractions := Nat.succ_mul _ _
    refine iff_of_true (by omega) ?_
    calc 2 * num < 2 * (2 * f.fractions * (den * 2 ^ shift)) := by omega
      _ = 2 * f.fractions * (den * 2 ^ (shift + 1)) := by ring
      _ ≤ (4 * f.fractions - 1) * (den * 2 ^ top) := Nat.mul_le_mul (by omega) hpow
  · -- in the last power it is the rounding that decides
    have hround := roundHalfEven_lt_iff hpos hlt (Nat.mul_mod_right 2 _)
    rw [show 2 * (2 * f.fractions) = 4 * f.fractions by omega] at hround
    omega
  · have hshift : (top + 1) * f.fractions ≤ shift * f.fractions := Nat.mul_le_mul_right _ hgreater
    have hfull := h.full.resolve_left (by omega)
    have hsum : (top + 1) * f.fractions = top * f.fractions + f.fractions := Nat.succ_mul _ _
    have hpow : den * 2 ^ (top + 1) ≤ den * 2 ^ shift :=
      Nat.mul_le_mul_left _ (Nat.pow_le_pow_right (by decide) hgreater)
    have hnum : f.fractions * (den * 2 ^ shift) ≤ num := (Nat.le_div_iff_mul_le hpos).1 hfull
    refine iff_of_false (by omega) (Nat.not_lt.2 ?_)
    calc (4 * f.fractions - 1) * (den * 2 ^ top) ≤ 4 * f.fractions * (den * 2 ^ top) :=
        Nat.mul_le_mul_right _ (Nat.sub_le _ _)
      _ = 2 * (f.fractions * (den * 2 ^ (top + 1))) := by ring
      _ ≤ 2 * (f.fractions * (den * 2 ^ shift)) := by
        exact Nat.mul_le_mul_left _ (Nat.mul_le_mul_left _ hpow)
      _ ≤ 2 * num := Nat.mul_le_mul_left _ hnum

end FloatFormat

end Wireform
