import Mathlib.Data.ENat.Lattice
import Mathlib.Order.FixedPoints
import Wireform.Proofs.Layout.Bound

/-!
# The walk finds a lower bound

The lower bounds of layouts make a system of equations over the slots of an arena; types
that contain themselves make it circular, and `Arena.least` is its least solution. The walk
remembers lengths that it has found while types further out counted as nothing; such a
length is too small at worst, so what is remembered always lies below the solution.

* `minSize_le_least`: the walk stays below the least solution.
* `least_le`: the least solution stays below every other one, also of the inequations.
-/

namespace Wireform.Arena

/-- The lower bounds of all slots, from bounds of the types in them. -/
noncomputable def leastStep (arena : Arena) : (TypeId → ℕ∞) →o (TypeId → ℕ∞) where
  toFun lower id :=
    match arena.get? id with
    | some type => type.layout.least lower
    | none => 0
  monotone' := by
    intro lower lower' h id
    dsimp only
    split
    · exact Layout.least_mono h _
    · exact le_rfl

/-- The least lengths that fit each other. -/
noncomputable def least (arena : Arena) : TypeId → ℕ∞ := arena.leastStep.lfp

variable {arena : Arena}

/-- The least length of a type is that of its layout. -/
theorem least_eq {id : TypeId} {type : CompiledType} (hid : arena.get? id = some type) :
    arena.least id = type.layout.least arena.least := by
  have hfix : arena.leastStep arena.least id = arena.least id := congrFun arena.leastStep.map_lfp id
  rw [← hfix]
  change (match arena.get? id with
    | some type => type.layout.least arena.least
    | none => 0) = _
  rw [hid]

/-- Lengths that are no less than those of their layouts lie above the least ones. -/
theorem least_le {lower : TypeId → ℕ∞}
    (h : ∀ id type, arena.get? id = some type → type.layout.least lower ≤ lower id) (id : TypeId) :
    arena.least id ≤ lower id := by
  refine arena.leastStep.lfp_le  (fun id => ?_) id
  change (match arena.get? id with
    | some type => type.layout.least lower
    | none => 0) ≤ lower id
  split
  · next type hid => exact h id type hid
  · exact bot_le

/-- What is remembered lies below the least lengths. -/
def Remembers (arena : Arena) (memo : List (ℕ × Option ℕ)) : Prop :=
  ∀ (id : TypeId) known, memo.lookup id.index = some (some known) → (known : ℕ∞) ≤ arena.least id

/-- From sound memories on, a walk ends with sound memories and a result with a property. -/
def Walks {α : Type} (arena : Arena) (x : Walk α) (post : α → Prop) : Prop :=
  ∀ memo, arena.Remembers memo → post (x memo).1 ∧ arena.Remembers (x memo).2

namespace Walks

variable {α β : Type} {x : Walk α} {post : α → Prop}

theorem pure {a : α} (h : post a) : arena.Walks (Pure.pure a) post := fun _ hmemo => ⟨h, hmemo⟩

theorem bind {f : α → Walk β} {post' : β → Prop} (hx : arena.Walks x post)
    (hf : ∀ a, post a → arena.Walks (f a) post') : arena.Walks (x >>= f) post' := by
  intro memo hmemo
  obtain ⟨ha, hafter⟩ := hx memo hmemo
  exact hf _ ha _ hafter

theorem get_bind {f : List (ℕ × Option ℕ) → Walk α}
    (hf : ∀ memo, arena.Remembers memo → arena.Walks (f memo) post) :
    arena.Walks (get >>= f) post := fun memo hmemo => hf memo hmemo memo hmemo

end Walks

theorem remembers_cons {memo : List (ℕ × Option ℕ)} (h : arena.Remembers memo) {id : TypeId}
    {length : Option ℕ} (hlength : ∀ n, length = some n → (n : ℕ∞) ≤ arena.least id) :
    arena.Remembers ((id.index, length) :: memo) := by
  intro other known hknown
  rw [List.lookup_cons] at hknown
  by_cases heq : other.index = id.index
  · rw [beq_iff_eq.2 heq] at hknown
    obtain rfl : other = id := congrArg TypeId.mk heq
    exact hlength known (Option.some.inj hknown)
  · rw [beq_eq_false_iff_ne.2 heq] at hknown
    exact h other known hknown

/-- A length that is remembered has to lie below the least length; one that is not known yet
may be remembered as such. -/
theorem walks_remember (id : TypeId) (length : Option ℕ)
    (hlength : ∀ n, length = some n → (n : ℕ∞) ≤ arena.least id) :
    arena.Walks (modify ((id.index, length) :: ·)) fun _ => True :=
  fun _ hmemo => ⟨trivial, remembers_cons hmemo hlength⟩

variable {length : TypeId → Walk ℕ}

theorem saturatingAdd_le (a b : ℕ) : saturatingAdd a b ≤ a + b := Nat.min_le_left _ _

theorem saturatingMul_le (a b : ℕ) : saturatingMul a b ≤ a * b := Nat.min_le_left _ _

theorem walks_sumOver (ids : List TypeId)
    (h : ∀ id ∈ ids, arena.Walks (length id) fun n => (n : ℕ∞) ≤ arena.least id) (total : ℕ) :
    arena.Walks (sumOver length total ids)
      fun n => (n : ℕ∞) ≤ total + (ids.map arena.least).sum := by
  induction ids generalizing total with
  | nil => exact Walks.pure (by simp)
  | cons id rest ih =>
    refine Walks.bind (h id List.mem_cons_self) fun n hn => ?_
    intro memo hmemo
    obtain ⟨hsum, hafter⟩ :=
      ih (fun id hid => h id (List.mem_cons_of_mem _ hid)) (saturatingAdd total n)
      memo hmemo
    refine ⟨hsum.trans ?_, hafter⟩
    rw [List.map_cons, List.sum_cons, ← add_assoc]
    -- saturation only makes a sum smaller
    have hadd : ((saturatingAdd total n : ℕ) : ℕ∞) ≤ total + n := by
      rw [← Nat.cast_add]
      exact Nat.cast_le.2 (saturatingAdd_le total n)
    exact add_le_add (hadd.trans (add_le_add le_rfl hn)) le_rfl

theorem walks_mapM (ids : List TypeId)
    (h : ∀ id ∈ ids, arena.Walks (length id) fun n => (n : ℕ∞) ≤ arena.least id) :
    arena.Walks (ids.mapM length) fun ns => ∀ id ∈ ids, ∃ n ∈ ns, (n : ℕ∞) ≤ arena.least id := by
  induction ids with
  | nil => exact Walks.pure (by simp)
  | cons id rest ih =>
    rw [List.mapM_cons]
    refine Walks.bind (h id List.mem_cons_self) fun n hn => ?_
    refine Walks.bind (ih fun id hid => h id (List.mem_cons_of_mem _ hid)) fun ns hns => ?_
    refine Walks.pure fun other ho => ?_
    rcases List.mem_cons.1 ho with rfl | ho
    · exact ⟨n, List.mem_cons_self, hn⟩
    · obtain ⟨m, hm, hle⟩ := hns other ho
      exact ⟨m, List.mem_cons_of_mem _ hm, hle⟩

theorem walks_leastOver (variants : List VariantLayout)
    (h : ∀ id ∈ variants.map VariantLayout.payload,
      arena.Walks (length id) fun n => (n : ℕ∞) ≤ arena.least id) :
    arena.Walks (leastOver length (variants.map VariantLayout.payload))
      fun n => (n : ℕ∞) ≤ leastPayload arena.least variants := by
  refine Walks.bind (walks_mapM _ h) fun ns hns => Walks.pure ?_
  clear h
  induction variants with
  | nil => exact le_top
  | cons variant rest ih =>
    refine le_min ?_ (ih fun id hid => hns id (List.mem_cons_of_mem _ hid))
    obtain ⟨m, hm, hle⟩ := hns variant.payload List.mem_cons_self
    exact (Nat.cast_le.2 (List.min?_getD_le_of_mem hm)).trans hle

theorem walks_layoutMin (layout : Layout)
    (h : ∀ id, arena.Walks (length id) fun n => (n : ℕ∞) ≤ arena.least id) :
    arena.Walks (layoutMin length layout) fun n => (n : ℕ∞) ≤ layout.least arena.least := by
  cases layout with
  | primitive | padded | bytes => exact Walks.pure le_rfl
  | struct s => exact walks_sumOver _ (fun id _ => h id) s.bitmapBytes
  | array a =>
    simp only [layoutMin, Layout.least]
    split
    · exact Walks.pure le_rfl
    · refine Walks.bind (h a.element) fun n hn => Walks.pure ?_
      refine (Nat.cast_le.2 (saturatingMul_le n a.size)).trans ?_
      rw [Nat.cast_mul, mul_comm]
      gcongr
  | enum e =>
    refine Walks.bind (walks_leastOver e.variants fun id _ => h id) fun payload hpayload => ?_
    refine Walks.bind (h e.tag) fun tag htag => Walks.pure ?_
    refine (Nat.cast_le.2 (saturatingAdd_le tag payload)).trans ?_
    rw [Nat.cast_add]
    exact add_le_add htag hpayload
  | synonym target => exact h target
  | list => exact Walks.pure (Nat.cast_one (R := ℕ∞)).le

theorem walks_minSizeWithin (depth : ℕ) (id : TypeId) :
    arena.Walks (arena.minSizeWithin depth id) fun n => (n : ℕ∞) ≤ arena.least id := by
  induction depth generalizing id with
  | zero => exact Walks.pure (by simp)
  | succ depth ih =>
    unfold minSizeWithin
    split
    · exact Walks.pure (by simp)
    next type htype =>
    refine Walks.get_bind fun memo hmemo => ?_
    split
    · next known hknown =>
      refine Walks.pure ?_
      cases known with
      | none => simp
      | some n => exact hmemo id n hknown
    -- while its parts are looked at, the type counts as nothing
    · refine Walks.bind (walks_remember id none fun n hn => nomatch hn) fun _ _ => ?_
      refine Walks.bind (walks_layoutMin type.layout ih) fun n hn => ?_
      rw [← least_eq htype] at hn
      refine Walks.bind (walks_remember id (some n) ?_) fun _ _ => Walks.pure hn
      intro m hm
      obtain rfl := Option.some.inj hm
      exact hn

/-- **The walk stays below the least length.** -/
theorem minSize_le_least (id : TypeId) : (arena.minSize id : ℕ∞) ≤ arena.least id :=
  (walks_minSizeWithin (arena.size + 1) id [] fun _ _ hknown => nomatch hknown).1

end Wireform.Arena
