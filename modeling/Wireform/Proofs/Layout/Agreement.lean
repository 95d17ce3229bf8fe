import Wireform.Proofs.Layout.Containment

/-!
# Arenas that agree on some slots

Two arenas agree on some slots if these hold the same types in both and refer to nothing but
each other. What is computed from such a slot alone is then the same in both, however many
other slots there are: each level of the walk notes a slot that was not noted before, so
neither of two walks that are given more levels than there are slots is cut short.

* `Agree.minSize_eq`: the lower bounds are the same.
-/

namespace Wireform.Arena

/-- Slots with a property hold the same in both arenas, and refer only to slots with it. -/
structure Agree (p : TypeId → Prop) (a b : Arena) : Prop where
  get? : ∀ id, p id → a.get? id = b.get? id
  closed : ∀ id type, p id → a.get? id = some type → ∀ part ∈ type.layout.references, p part

variable {p : TypeId → Prop} {a b : Arena}

theorem Agree.refl (a : Arena) : Agree (fun _ => True) a a :=
  ⟨fun _ _ => rfl, fun _ _ _ _ _ _ => trivial⟩

theorem Agree.symm (h : Agree p a b) : Agree p b a :=
  ⟨fun id hid => (h.get? id hid).symm,
    fun id type hid htype => h.closed id type hid ((h.get? id hid).trans htype)⟩

/-! ### Walks -/

/-- On notes that leave at most so many slots unseen, two walks find the same and take the same
notes, in addition to those that are there. -/
def Alike {α : Type} (arena : Arena) (count : ℕ) (x y : Walk α) : Prop :=
  ∀ notes, arena.unseen notes ≤ count →
    x notes = y notes ∧ arena.unseen (x notes).2 ≤ arena.unseen notes

namespace Alike

variable {α β : Type} {arena : Arena} {count : ℕ}

theorem pure (result : α) : arena.Alike count (Pure.pure result) (Pure.pure result) :=
  fun _ _ => ⟨rfl, le_rfl⟩

theorem bind {x y : Walk α} {f g : α → Walk β} (hxy : arena.Alike count x y)
    (hfg : ∀ result, arena.Alike count (f result) (g result)) :
    arena.Alike count (x >>= f) (y >>= g) := by
  intro notes hnotes
  obtain ⟨hsame, hle⟩ := hxy notes hnotes
  obtain ⟨hsame', hle'⟩ := hfg (x notes).1 (x notes).2 (hle.trans hnotes)
  refine ⟨?_, hle'.trans hle⟩
  change f (x notes).1 (x notes).2 = g (y notes).1 (y notes).2
  rw [hsame', hsame]

end Alike

section Layouts

variable {arena : Arena} {count : ℕ} {length length' : TypeId → Walk ℕ}

theorem alike_sumOver {ids : List TypeId}
    (h : ∀ id ∈ ids, arena.Alike count (length id) (length' id)) (total : ℕ) :
    arena.Alike count (sumOver length total ids) (sumOver length' total ids) := by
  induction ids generalizing total with
  | nil => exact Alike.pure total
  | cons id rest ih =>
    refine (h id List.mem_cons_self).bind fun n => ?_
    exact ih (fun other ho => h other (List.mem_cons_of_mem _ ho)) _

theorem alike_leastOver {ids : List TypeId}
    (h : ∀ id ∈ ids, arena.Alike count (length id) (length' id)) :
    arena.Alike count (leastOver length ids) (leastOver length' ids) := by
  have hall : arena.Alike count (ids.mapM length) (ids.mapM length') := by
    induction ids with
    | nil => exact Alike.pure []
    | cons id rest ih =>
      rw [List.mapM_cons, List.mapM_cons]
      refine (h id List.mem_cons_self).bind fun n => ?_
      exact (ih fun other ho => h other (List.mem_cons_of_mem _ ho)).bind fun ns => Alike.pure _
  exact hall.bind fun ns => Alike.pure _

/-- A layout is walked through by its references. -/
theorem alike_layoutMin {layout : Layout}
    (h : ∀ id ∈ layout.references, arena.Alike count (length id) (length' id)) :
    arena.Alike count (layoutMin length layout) (layoutMin length' layout) := by
  cases layout with
  | primitive | list | padded | bytes => exact Alike.pure _
  | struct s =>
    refine alike_sumOver (fun id hid => h id (mem_references_of_mandatory ?_)) _
    exact hid
  | array a =>
    simp only [layoutMin]
    split
    · exact Alike.pure _
    · exact (h a.element List.mem_cons_self).bind fun n => Alike.pure _
  | enum e =>
    refine (alike_leastOver fun id hid => h id (List.mem_cons_of_mem _ hid)).bind fun payload => ?_
    exact (h e.tag List.mem_cons_self).bind fun tag => Alike.pure _
  | synonym target => exact h target List.mem_cons_self

end Layouts

theorem get_bind {α : Type} (f : List (ℕ × Option ℕ) → Walk α) (notes : List (ℕ × Option ℕ)) :
    (get >>= f) notes = f notes notes := rfl

/-- What is known of a type is what has been noted. -/
theorem minSizeWithin_of_known {arena : Arena} {id : TypeId} {type : CompiledType}
    {notes : List (ℕ × Option ℕ)} {known : Option ℕ} (hid : arena.get? id = some type)
    (hknown : notes.lookup id.index = some known) (depth : ℕ) :
    arena.minSizeWithin (depth + 1) id notes = (known.getD 0, notes) := by
  unfold minSizeWithin
  rw [hid]
  simp only [get_bind, hknown]
  rfl

/-- A type of which nothing is known is noted before its layout is walked through, and again with
what has been found. -/
theorem minSizeWithin_of_new {arena : Arena} {id : TypeId} {type : CompiledType}
    {notes : List (ℕ × Option ℕ)} (hid : arena.get? id = some type)
    (hnew : notes.lookup id.index = none) (depth : ℕ) :
    arena.minSizeWithin (depth + 1) id notes =
      (let found := layoutMin (arena.minSizeWithin depth) type.layout ((id.index, none) :: notes)
       (found.1, (id.index, some found.1) :: found.2)) := by
  rw [minSizeWithin, hid]
  simp only [get_bind, hnew]
  rfl

/-- As long as there are more levels than unseen slots, their number does not matter. -/
theorem Agree.alike_minSizeWithin (h : Agree p a b) {count depth depth' : ℕ}
    (hdepth : count < depth) (hdepth' : count < depth') {id : TypeId} (hid : p id) :
    a.Alike count (a.minSizeWithin depth id) (b.minSizeWithin depth' id) := by
  induction count using Nat.strong_induction_on generalizing depth depth' id with
  | _ count ih =>
    obtain ⟨depth, rfl⟩ := Nat.exists_eq_add_of_lt hdepth
    obtain ⟨depth', rfl⟩ := Nat.exists_eq_add_of_lt hdepth'
    intro notes hnotes
    have hget := h.get? id hid
    cases htype : a.get? id with
    | none =>
      rw [htype] at hget
      rw [minSizeWithin, minSizeWithin, htype, ← hget]
      exact ⟨rfl, le_rfl⟩
    | some type =>
      rw [htype] at hget
      cases hlookup : notes.lookup id.index with
      | some known =>
        rw [minSizeWithin_of_known htype hlookup, minSizeWithin_of_known hget.symm hlookup]
        exact ⟨rfl, le_rfl⟩
      | none =>
        -- the type is noted now, so fewer slots are unseen while its parts are looked at
        have hless := unseen_mark (a.lt_size_of_get? htype) hlookup (none : Option ℕ)
        have hparts : a.Alike (count - 1) (layoutMin (a.minSizeWithin (count + depth)) type.layout)
            (layoutMin (b.minSizeWithin (count + depth')) type.layout) :=
          alike_layoutMin fun part hpart =>
            ih (count - 1) (by omega) (by omega) (by omega) (h.closed id type hid htype part hpart)
        obtain ⟨hsame, hle⟩ := hparts ((id.index, none) :: notes) (by omega)
        rw [minSizeWithin_of_new htype hlookup, minSizeWithin_of_new hget.symm hlookup, ← hsame]
        exact ⟨rfl, (unseen_mark_le _ _ _).trans (hle.trans hless.le)⟩

/-- **The lower bounds are the same.** -/
theorem Agree.minSize_eq (h : Agree p a b) (hsize : a.size ≤ b.size) {id : TypeId} (hid : p id) :
    a.minSize id = b.minSize id := by
  have hwalk := h.alike_minSizeWithin (Nat.lt_succ_self a.size) (Nat.lt_succ_of_le hsize) hid
  exact congrArg Prod.fst (hwalk [] (unseen_le_size _)).1

end Wireform.Arena
