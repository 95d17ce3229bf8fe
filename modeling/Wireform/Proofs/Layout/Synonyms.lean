import Wireform.Proofs.Converges
import Wireform.Proofs.Layout.Built

/-!
# Types behind synonyms

Synonyms are followed for a bounded number of steps. The bound does not matter: synonyms that lead
anywhere lead there before a slot is met twice. So what is behind a slot depends only on the slots
to which its synonyms lead, and it is the same in every arena that holds the same in these.

* `peel?_of_peelWithin?`: the bound is high enough.
* `Extends.peel?_eq`: what is behind a slot, in an earlier and in a later arena.
-/

namespace Wireform.Arena

/-- From a slot to itself, and along synonyms to others. -/
inductive LeadsTo (arena : Arena) : TypeId → TypeId → Prop where
  | self (id : TypeId) : LeadsTo arena id id
  | synonym {id target other : TypeId} {type : CompiledType} (hid : arena.get? id = some type)
      (hl : type.layout = .synonym target) (h : LeadsTo arena target other) : LeadsTo arena id other

variable {a b : Arena} {id : TypeId} {type : CompiledType} {steps : ℕ}

/-- More steps lead to the same type, in any later arena. -/
theorem peelWithin?_of_extends (h : Extends a b) {more : ℕ} (hle : steps ≤ more)
    (hpeel : a.peelWithin? steps id = some type) : b.peelWithin? more id = some type := by
  induction steps generalizing more id with
  | zero => cases hpeel
  | succ steps ih =>
    obtain ⟨more, rfl⟩ := Nat.exists_eq_add_of_le' (Nat.le_trans (Nat.le_add_left 1 steps) hle)
    rw [peelWithin?] at hpeel ⊢
    split at hpeel
    · cases hpeel
    · next found hfound =>
      rw [h.get? id found hfound]
      dsimp only
      split at hpeel
      · exact ih (Nat.le_of_succ_le_succ hle) hpeel
      · exact hpeel

theorem peelWithin?_mono (h : a.peelWithin? steps id = some type) :
    a.peelWithin? (steps + 1) id = some type :=
  peelWithin?_of_extends (.refl a) (Nat.le_succ steps) h

theorem exists_of_peelWithin? (h : (a.peelWithin? steps id).isSome) :
    ∃ type, a.get? id = some type := by
  cases steps with
  | zero => cases h
  | succ steps =>
    cases hid : a.get? id with
    | none =>
      rw [peelWithin?, hid] at h
      cases h
    | some type => exact ⟨type, rfl⟩

/-- One more step leads from a slot to what its target leads to. -/
theorem peelWithin?_synonym {target : TypeId} (hid : a.get? id = some type)
    (hl : type.layout = .synonym target) (steps : ℕ) :
    a.peelWithin? (steps + 1) id = a.peelWithin? steps target := by
  simp only [peelWithin?, hid, hl]

/-- A slot that is no synonym is reached at once. -/
theorem peelWithin?_other (hid : a.get? id = some type)
    (hl : ∀ target, type.layout ≠ .synonym target) (steps : ℕ) :
    a.peelWithin? (steps + 1) id = some type := by
  rw [peelWithin?, hid]
  dsimp only
  split
  · next target htarget => exact absurd htarget (hl target)
  · rfl

/-- What is behind a slot is the type of a slot to which it leads. -/
theorem exists_leadsTo_of_peelWithin? (h : a.peelWithin? steps id = some type) :
    ∃ other, a.LeadsTo id other ∧ a.get? other = some type := by
  induction steps generalizing id with
  | zero => cases h
  | succ steps ih =>
    obtain ⟨found, hfound⟩ := exists_of_peelWithin? (by rw [h]; rfl)
    by_cases hl : ∃ target, found.layout = .synonym target
    · obtain ⟨target, htarget⟩ := hl
      rw [peelWithin?_synonym hfound htarget] at h
      obtain ⟨other, hother, hget⟩ := ih h
      exact ⟨other, .synonym hfound htarget hother, hget⟩
    · rw [peelWithin?_other hfound fun target htarget => hl ⟨target, htarget⟩] at h
      obtain rfl := Option.some.inj h
      exact ⟨id, .self id, hfound⟩

/-- **The bound is high enough.** -/
theorem peel?_of_peelWithin? (h : a.peelWithin? steps id = some type) : a.peel? id = some type := by
  have hmono : ∀ (k : ℕ) (id : TypeId), (a.peelWithin? k id).isSome →
      (a.peelWithin? (k + 1) id).isSome := by
    intro k id hsome
    obtain ⟨found, hfound⟩ := Option.isSome_iff_exists.1 hsome
    rw [peelWithin?_mono hfound]
    rfl
  -- from some number of steps on no further slot leads anywhere
  obtain ⟨k, hk, hstable⟩ := exists_stable ((List.range a.size).map TypeId.mk) hmono
  have hall : ∀ (steps : ℕ) (id : TypeId), (a.peelWithin? steps id).isSome →
      (a.peelWithin? k id).isSome := by
    intro steps
    induction steps with
    | zero => exact fun _ h => nomatch h
    | succ steps ih =>
      intro id hsome
      obtain ⟨found, hfound⟩ := exists_of_peelWithin? hsome
      refine hstable id
        (List.mem_map.2 ⟨id.index, List.mem_range.2 (lt_size_of_get? _ hfound), rfl⟩) ?_
      by_cases hl : ∃ target, found.layout = .synonym target
      · obtain ⟨target, htarget⟩ := hl
        rw [peelWithin?_synonym hfound htarget] at hsome ⊢
        exact ih target hsome
      · rw [peelWithin?_other hfound fun target htarget => hl ⟨target, htarget⟩]
        rfl
  rw [List.length_map, List.length_range] at hk
  obtain ⟨found, hfound⟩ := Option.isSome_iff_exists.1 (hall steps id (by rw [h]; rfl))
  have hpeel : a.peel? id = some found :=
    peelWithin?_of_extends (.refl a) (Nat.le_succ_of_le hk) hfound
  -- both numbers of steps lead to what the greater one leads to
  have hleft := peelWithin?_of_extends (.refl a) (le_max_left steps k) h
  have hright := peelWithin?_of_extends (.refl a) (le_max_right steps k) hfound
  rw [hpeel, ← hright, hleft]

theorem Extends.peel?_of_some (h : Extends a b) (hpeel : a.peel? id = some type) :
    b.peel? id = some type :=
  peelWithin?_of_extends h (Nat.succ_le_succ h.size_le) hpeel

/-- **What is behind a slot** stays the same if the slots on the way held then what they hold
later. -/
theorem Extends.peel?_eq (h : Extends a b)
    (hsame : ∀ other, b.LeadsTo id other → a.get? other = b.get? other) :
    a.peel? id = b.peel? id := by
  have hwithin : ∀ steps, a.peelWithin? steps id = b.peelWithin? steps id := by
    intro steps
    induction steps generalizing id with
    | zero => rfl
    | succ steps ih =>
      rw [peelWithin?, peelWithin?, hsame id (.self id)]
      cases hid : b.get? id with
      | none => rfl
      | some type =>
        dsimp only
        split
        · next target htarget =>
            exact ih fun other hother => hsame other (.synonym hid htarget hother)
        · rfl
  cases hpeel : b.peel? id with
  | none =>
    cases hfirst : a.peel? id with
    | none => rfl
    | some type =>
      rw [h.peel?_of_some hfirst] at hpeel
      cases hpeel
  | some type => exact peel?_of_peelWithin? ((hwithin _).trans hpeel)

end Wireform.Arena
