import Mathlib.Tactic.Common

/-!
# What a run ensures

`Ensures s x post failed`: run from `s`, the computation `x` ends in a result and a
state that satisfy `post`, or in an error and a state that satisfy `failed`. Both
ends are named, because a failed step is undone only if it is known what it did.

* `Ensures.bind`: one computation after another.
* `exists_of_bind_ok`, `bind_of_ok`: a run that succeeds, taken apart and put together.
-/

namespace Wireform

variable {ε σ α β : Type}

section Runs

variable {x : EStateM ε σ α} {f : α → EStateM ε σ β} {s t : σ}

/-- A run goes on where its first step has ended. -/
theorem bind_of_ok {a : α} (h : x s = .ok a t) : (x >>= f) s = f a t := by
  change EStateM.bind x f s = _
  unfold EStateM.bind
  rw [h]

theorem bind_of_error {e : ε} (h : x s = .error e t) : (x >>= f) s = .error e t := by
  change EStateM.bind x f s = _
  unfold EStateM.bind
  rw [h]

/-- A run that succeeds consists of a step and a rest that do. -/
theorem exists_of_bind_ok {b : β} (h : (x >>= f) s = .ok b t) :
    ∃ a mid, x s = .ok a mid ∧ f a mid = .ok b t := by
  cases hx : x s with
  | ok a mid =>
    rw [bind_of_ok hx] at h
    exact ⟨a, mid, rfl, h⟩
  | error e mid =>
    rw [bind_of_error hx] at h
    cases h

/-- A run that fails does so in its first step or in the rest. -/
theorem error_of_bind {e : ε} (h : (x >>= f) s = .error e t) :
    x s = .error e t ∨ ∃ a u, x s = .ok a u ∧ f a u = .error e t := by
  cases hx : x s with
  | ok a u => exact Or.inr ⟨a, u, rfl, (bind_of_ok hx).symm.trans h⟩
  | error e' u =>
    obtain ⟨rfl, rfl⟩ := EStateM.Result.error.inj ((bind_of_error hx).symm.trans h)
    exact Or.inl rfl

/-- What is read is the state. -/
theorem get_bind (f : σ → EStateM ε σ β) (s : σ) : (get >>= f) s = f s s := rfl

theorem ok_of_toOption {x : Except ε α} {a : α} (h : x.toOption = some a) : x = .ok a := by
  cases x with
  | ok found => exact congrArg Except.ok (Option.some.inj h)
  | error e => cases h

theorem eq_ok_get {x : Except ε α} (h : x.toOption.isSome = true) : x = .ok (x.toOption.get h) :=
  ok_of_toOption (Option.some_get h).symm

theorem exists_ok_of_isSome {x : Except ε α} (h : x.toOption.isSome = true) : ∃ a, x = .ok a :=
  ⟨_, eq_ok_get h⟩

/-- What a run gives; of a failure it leaves out the state. -/
def ending (x : EStateM ε σ α) (s : σ) : Except ε (α × σ) :=
  match x s with
  | .ok a t => .ok (a, t)
  | .error e _ => .error e

theorem ending_of_ok {a : α} (h : x s = .ok a t) : ending x s = .ok (a, t) := by
  rw [ending, h]

theorem ending_of_error {e : ε} (h : x s = .error e t) : ending x s = .error e := by
  rw [ending, h]

theorem error_of_ending {e : ε} (h : ending x s = .error e) : ∃ t, x s = .error e t := by
  unfold ending at h
  split at h
  · cases h
  · next hx =>
    obtain rfl := Except.error.inj h
    exact ⟨_, hx⟩

theorem ok_of_ending {a : α} (h : ending x s = .ok (a, t)) : x s = .ok a t := by
  unfold ending at h
  split at h
  · next hx =>
    cases h
    exact hx
  · cases h

end Runs

/-- From `s` on, a result satisfies `post`, an error satisfies `failed`. -/
def Ensures (s : σ) (x : EStateM ε σ α) (post : α → σ → Prop) (failed : ε → σ → Prop) : Prop :=
  match x s with
  | .ok a t => post a t
  | .error e t => failed e t

namespace Ensures

variable {s : σ} {x : EStateM ε σ α} {post post' : α → σ → Prop} {failed failed' : ε → σ → Prop}

theorem mono (h : Ensures s x post failed) (hp : ∀ a t, post a t → post' a t)
    (hf : ∀ e t, failed e t → failed' e t) : Ensures s x post' failed' := by
  unfold Ensures at *
  split at h
  · exact hp _ _ h
  · exact hf _ _ h

theorem bind {f : α → EStateM ε σ β} {p : α → σ → Prop} {post' : β → σ → Prop}
    (h : Ensures s x p failed) (hf : ∀ a t, p a t → Ensures t (f a) post' failed) :
    Ensures s (x >>= f) post' failed := by
  unfold Ensures at h
  split at h
  · next a t hx =>
    unfold Ensures
    rw [bind_of_ok hx]
    exact hf a t h
  · next e t hx =>
    unfold Ensures
    rwa [bind_of_error hx]

theorem get_bind {f : σ → EStateM ε σ β} {post' : β → σ → Prop} (h : Ensures s (f s) post' failed) :
    Ensures s (get >>= f) post' failed := h

theorem of_ok {a : α} {t : σ} (h : Ensures s x post failed) (hx : x s = .ok a t) : post a t := by
  unfold Ensures at h
  rwa [hx] at h

theorem of_error {e : ε} {t : σ} (h : Ensures s x post failed) (hx : x s = .error e t) :
    failed e t := by
  unfold Ensures at h
  rwa [hx] at h

end Ensures

end Wireform
