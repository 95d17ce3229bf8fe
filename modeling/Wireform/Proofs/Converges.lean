import Mathlib.Data.Fintype.Card
import Mathlib.Order.Fin.Basic
import Mathlib.Order.Lattice
import Wireform.Proofs.Ensures
import Wireform.Stop

/-!
# Computations that enough levels bring to an end

A computation that is given a number of levels converges if it has one outcome, a result or
a failure, which it always comes to with enough levels; with fewer levels it may also report
the lack of them, but nothing else. What `Ensures` says of one run, `Converges` says of the
runs at all numbers of levels.

* `Converges.of_ensures`: a computation that needs no levels.
* `Converges.bind`: one computation after another; the greater number is enough for both.
* `Converges.of_succ`: what one level is spent on.
* `Converges.exists_answer`: one answer with enough levels, and no other with fewer.
* `exists_stable`: what a growing number of levels adds comes to an end.
-/

namespace Wireform

variable {ε σ α β : Type}

/-- The run lacks levels. -/
def Starves (s : σ) (x : EStateM (Stop ε) σ α) : Prop := ∃ t, x s = .error .outOfFuel t

/-- Run from `s` the computation has one outcome, a result that satisfies `post` or a failure: with
enough levels it always comes to it, and with fewer it does or lacks levels. -/
def Converges (s : σ) (x : ℕ → EStateM (Stop ε) σ α) (post : α → σ → Prop) : Prop :=
  ∃ out : EStateM.Result (Stop ε) σ α, (∃ enough, ∀ levels ≥ enough, x levels s = out) ∧
    (∀ levels, x levels s = out ∨ Starves s (x levels)) ∧
    Ensures s (fun _ => out) post fun stop _ => stop ≠ .outOfFuel

theorem Starves.bind {s : σ} {x : EStateM (Stop ε) σ α} (h : Starves s x)
    (f : α → EStateM (Stop ε) σ β) :
    Starves s (x >>= f) := by
  obtain ⟨t, ht⟩ := h
  exact ⟨t, bind_of_error ht⟩

theorem Starves.bind_of_ok {s t : σ} {x : EStateM (Stop ε) σ α} {a : α} (hx : x s = .ok a t)
    {f : α → EStateM (Stop ε) σ β} (h : Starves t (f a)) : Starves s (x >>= f) := by
  obtain ⟨u, hu⟩ := h
  exact ⟨u, (Wireform.bind_of_ok hx).trans hu⟩

theorem Starves.get_bind {s : σ} {f : σ → EStateM (Stop ε) σ β} (h : Starves s (f s)) :
    Starves s (get >>= f) := h

namespace Converges

variable {s : σ} {x : ℕ → EStateM (Stop ε) σ α} {post post' : α → σ → Prop}

theorem of_ensures {y : EStateM (Stop ε) σ α}
    (h : Ensures s y post fun stop _ => stop ≠ .outOfFuel) :
    Converges s (fun _ => y) post :=
  ⟨y s, ⟨0, fun _ _ => rfl⟩, fun _ => Or.inl rfl, h⟩

theorem mono (h : Converges s x post) (hp : ∀ a t, post a t → post' a t) : Converges s x post' := by
  obtain ⟨out, henough, hbelow, hend⟩ := h
  exact ⟨out, henough, hbelow, hend.mono hp fun _ _ hstop => hstop⟩

/-- **One computation after another.** -/
theorem bind {f : ℕ → α → EStateM (Stop ε) σ β} {p : α → σ → Prop} {post' : β → σ → Prop}
    (h : Converges s x p) (hf : ∀ a t, p a t → Converges t (fun levels => f levels a) post') :
    Converges s (fun levels => x levels >>= f levels) post' := by
  obtain ⟨out, ⟨enough, hsame⟩, hbelow, hend⟩ := h
  unfold Ensures at hend
  cases out with
  | ok a t =>
    obtain ⟨out, ⟨more, hsame'⟩, hbelow', hend'⟩ := hf a t hend
    -- the greater number is enough for both
    refine ⟨out, ⟨max enough more, fun levels hl => ?_⟩, fun levels => ?_, hend'⟩
    · exact (bind_of_ok (hsame levels (le_trans (le_max_left _ _) hl))).trans
        (hsame' levels (le_trans (le_max_right _ _) hl))
    · rcases hbelow levels with hok | hstarves
      · exact (hbelow' levels).imp (bind_of_ok hok).trans (Starves.bind_of_ok hok)
      · exact Or.inr (hstarves.bind _)
  | error stop t =>
    refine ⟨.error stop t, ⟨enough, fun levels hl => bind_of_error (hsame levels hl)⟩,
      fun levels => ?_, hend⟩
    exact (hbelow levels).imp bind_of_error fun hstarves => hstarves.bind _

theorem pure {a : α} (h : post a s) :
    Converges s (fun _ => (Pure.pure a : EStateM (Stop ε) σ α)) post :=
  of_ensures h

theorem throw {stop : Stop ε} (h : stop ≠ .outOfFuel) :
    Converges s (fun _ => (MonadExcept.throw stop : EStateM (Stop ε) σ α)) post :=
  of_ensures h

theorem get_bind {f : ℕ → σ → EStateM (Stop ε) σ β} {post' : β → σ → Prop}
    (h : Converges s (fun levels => f levels s) post') :
    Converges s (fun levels => get >>= f levels) post' := h

/-- If it converges with one level less, and lacks levels without any, it converges. -/
theorem of_succ (hzero : Starves s (x 0)) (h : Converges s (fun levels => x (levels + 1)) post) :
    Converges s x post := by
  obtain ⟨out, ⟨enough, hsame⟩, hbelow, hend⟩ := h
  refine ⟨out, ⟨enough + 1, fun levels hl => ?_⟩, fun levels => ?_, hend⟩
  · obtain ⟨levels, rfl⟩ := Nat.exists_eq_add_of_le' (Nat.le_trans (Nat.le_add_left 1 enough) hl)
    exact hsame levels (Nat.le_of_succ_le_succ hl)
  · cases levels with
    | zero => exact Or.inr hzero
    | succ levels => exact hbelow levels

/-- A result at any number of levels satisfies `post`. -/
theorem of_ok (h : Converges s x post) {levels : ℕ} {a : α} {t : σ}
    (hx : x levels s = .ok a t) : post a t := by
  obtain ⟨out, -, hbelow, hend⟩ := h
  rcases hbelow levels with hout | ⟨u, hu⟩
  · rw [← hout, hx] at hend
    exact hend
  · rw [hx] at hu
    cases hu

/-- **One answer.** What the outcome is answered with does not depend on the number of levels, if
their lack is always answered with the same. -/
theorem exists_answer {β : Type} (h : Converges s x post) (answer : EStateM.Result (Stop ε) σ α → β)
    {lacking : β} {p : β → Prop} (hok : ∀ a t, p (answer (.ok a t)))
    (herror : ∀ stop t, stop ≠ .outOfFuel → p (answer (.error stop t)))
    (hlacking : ∀ levels t, x levels s = .error .outOfFuel t →
      answer (.error .outOfFuel t) = lacking) :
    ∃ b, p b ∧ (∃ enough, ∀ levels ≥ enough, answer (x levels s) = b) ∧
      ∀ levels, answer (x levels s) = b ∨ answer (x levels s) = lacking := by
  obtain ⟨out, ⟨enough, hsame⟩, hbelow, hend⟩ := h
  refine ⟨answer out, ?_, ⟨enough, fun levels hl => congrArg answer (hsame levels hl)⟩,
    fun levels => ?_⟩
  · cases out with
    | ok a t => exact hok a t
    | error stop t => exact herror stop t hend
  · refine (hbelow levels).imp (congrArg answer) fun hstarves => ?_
    obtain ⟨t, ht⟩ := hstarves
    rw [ht, hlacking levels t ht]

end Converges

/-! ### Finitely many things -/

/-- A property that only grows with `k` stops growing at some `k`, which the number of things that
can have it bounds. -/
theorem exists_stable {α : Type} (all : List α) {p : ℕ → α → Prop}
    (hmono : ∀ k a, p k a → p (k + 1) a) : ∃ k ≤ all.length, ∀ a ∈ all, p (k + 1) a → p k a := by
  classical
  by_contra hnever
  -- otherwise each step brings in a thing of its own
  have hnew : ∀ k : Fin (all.length + 1), ∃ a ∈ all, p (k + 1) a ∧ ¬p k a := by
    intro k
    by_contra hnone
    refine hnever ⟨k, Nat.le_of_lt_succ k.isLt, fun a ha hp => ?_⟩
    by_contra hnot
    exact hnone ⟨a, ha, hp, hnot⟩
  choose new hmem hafter hbefore using hnew
  -- what holds at one step holds at every later one
  have hlater : ∀ a {i j : ℕ}, i ≤ j → p i a → p j a := by
    intro a i j hij hi
    induction hij with
    | refl => exact hi
    | step _ ih => exact hmono _ a ih
  -- so nothing is new at two steps
  have hdistinct : Function.Injective new := by
    intro i j heq
    rcases lt_trichotomy i j with hlt | rfl | hlt
    · have hj := hlater _ (Nat.succ_le_of_lt hlt) (hafter i)
      rw [heq] at hj
      exact absurd hj (hbefore j)
    · rfl
    · have hi := hlater _ (Nat.succ_le_of_lt hlt) (hafter j)
      rw [← heq] at hi
      exact absurd hi (hbefore i)
  -- which makes one thing more than there are
  have hcard : (Finset.univ : Finset (Fin (all.length + 1))).card ≤ all.toFinset.card :=
    Finset.card_le_card_of_injOn new (fun k _ => List.mem_toFinset.2 (hmem k)) hdistinct.injOn
  rw [Finset.card_univ, Fintype.card_fin] at hcard
  have hdup := List.toFinset_card_le all
  omega

end Wireform
