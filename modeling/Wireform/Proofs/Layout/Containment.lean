import Mathlib.Data.Finset.Card
import Mathlib.Data.Finset.Range
import Mathlib.Logic.Relation
import Wireform.Layout.Containment
import Wireform.Proofs.Ensures
import Wireform.Proofs.Layout.Bound

/-!
# The search finds the types that contain themselves

The depth-first search is given one level more than there are slots, and each level marks a
slot that was not marked before, so it is never cut short. A slot that is done has only
parts that are done; a slot that is still being looked at lies around every slot that is
looked into. So the search stops exactly at cycles.

* `acc_of_cycle?_eq_none`: if the search finds nothing, the parts of a slot's parts come to an end.
* `cycle?_sound`: a slot that it finds contains itself.
* `Acyclic.extend`: new slots among which nothing is found close no cycle with the old ones.
-/

namespace Wireform.Arena

open Relation

/-- A slot is a mandatory part of another one. -/
def PartOf (arena : Arena) (part id : TypeId) : Prop :=
  ∃ type, arena.get? id = some type ∧ part ∈ type.layout.mandatory

/-- No value of a type contains another value of the type. -/
def Acyclic (arena : Arena) : Prop := ∀ id, ¬TransGen arena.PartOf id id

/-- A slot is a part of another one that the search follows. -/
def Inside (arena : Arena) (start : ℕ) (part id : TypeId) : Prop := part ∈ arena.partsFrom start id

/-- What has no endless descent below it does not lie below itself. -/
theorem not_transGen_of_acc {α : Type} {r : α → α → Prop} {a : α} (h : Acc r a) :
    ¬TransGen r a a := by
  induction h with
  | intro a _ ih =>
    intro hcycle
    obtain ⟨b, hab, hba⟩ := TransGen.tail'_iff.1 hcycle
    -- the same cycle, entered one step further down
    exact ih b hba (TransGen.head' hba hab)

variable {arena : Arena} {start : ℕ} {s t u : List (ℕ × Progress)}

theorem inside_iff {part id : TypeId} : arena.Inside start part id ↔
    arena.PartOf part id ∧ start ≤ part.index ∧ part.index < arena.size := by
  unfold Inside partsFrom PartOf
  cases arena.get? id with
  | none => simp
  | some type => simp

theorem Inside.partOf {part id : TypeId} (h : arena.Inside start part id) : arena.PartOf part id :=
  (inside_iff.1 h).1

/-! ### States of the search -/

/-- From a slot that is done there is no endless descent. -/
def Settled (arena : Arena) (start : ℕ) (s : List (ℕ × Progress)) : Prop :=
  ∀ id : TypeId, s.lookup id.index = some .done → Acc (arena.Inside start) id

/-- Every slot that is being looked at contains a given one. -/
def Surrounds (arena : Arena) (start : ℕ) (s : List (ℕ × Progress)) (id : TypeId) : Prop :=
  ∀ around : TypeId, s.lookup around.index = some .active → TransGen (arena.Inside start) id around

/-- A later state of the search, after all that was begun has been ended. -/
structure Proceeds (s t : List (ℕ × Progress)) : Prop where
  kept : ∀ index progress, s.lookup index = some progress → t.lookup index = some progress
  active : ∀ index, t.lookup index = some .active → s.lookup index = some .active

theorem Proceeds.refl (s : List (ℕ × Progress)) : Proceeds s s := ⟨fun _ _ h => h, fun _ h => h⟩

theorem Proceeds.trans (hst : Proceeds s t) (htu : Proceeds t u) : Proceeds s u :=
  ⟨fun index progress h => htu.kept index progress (hst.kept index progress h),
    fun index h => hst.active index (htu.active index h)⟩

theorem Surrounds.later {id : TypeId} (h : arena.Surrounds start s id) (hst : Proceeds s t) :
    arena.Surrounds start t id := fun around haround => h around (hst.active _ haround)

/-- The number of slots about which nothing has been noted. -/
def unseen {α : Type} (arena : Arena) (notes : List (ℕ × α)) : ℕ :=
  ((Finset.range arena.size).filter fun index => (notes.lookup index).isNone).card

theorem unseen_le_size {α : Type} (notes : List (ℕ × α)) : arena.unseen notes ≤ arena.size :=
  (Finset.card_filter_le _ _).trans (Finset.card_range _).le

theorem unseen_mono {α : Type} {notes more : List (ℕ × α)}
    (h : ∀ index, more.lookup index = none → notes.lookup index = none) :
    arena.unseen more ≤ arena.unseen notes := by
  refine Finset.card_le_card fun index hindex => ?_
  rw [Finset.mem_filter, Option.isNone_iff_eq_none] at hindex ⊢
  exact ⟨hindex.1, h index hindex.2⟩

theorem Proceeds.unseen_le (h : Proceeds s t) (arena : Arena) :
    arena.unseen t ≤ arena.unseen s := by
  refine unseen_mono fun index hindex => ?_
  cases hs : s.lookup index with
  | none => rfl
  | some progress => rw [h.kept index progress hs] at hindex; cases hindex

theorem lookup_mark {α : Type} (notes : List (ℕ × α)) (index other : ℕ) (note : α) :
    ((index, note) :: notes).lookup other = if other = index then some note
      else notes.lookup other := by
  rw [List.lookup_cons]
  by_cases h : other = index
  · rw [if_pos h, beq_iff_eq.2 h]
  · rw [if_neg h, beq_eq_false_iff_ne.2 h]

theorem unseen_mark_le {α : Type} (notes : List (ℕ × α)) (index : ℕ) (note : α) :
    arena.unseen ((index, note) :: notes) ≤ arena.unseen notes := by
  refine unseen_mono fun other hother => ?_
  rw [lookup_mark] at hother
  split at hother
  · cases hother
  · exact hother

/-- A slot that is marked for the first time is one less to look at. -/
theorem unseen_mark {α : Type} {notes : List (ℕ × α)} {index : ℕ} (hlt : index < arena.size)
    (hnew : notes.lookup index = none) (note : α) :
    arena.unseen ((index, note) :: notes) < arena.unseen notes := by
  refine Finset.card_lt_card ⟨fun other hother => ?_, fun hsub => ?_⟩
  · rw [Finset.mem_filter, lookup_mark] at hother
    rw [Finset.mem_filter]
    split at hother
    · cases hother.2
    · exact hother
  · have hmem :=
      hsub (Finset.mem_filter.2 ⟨Finset.mem_range.2 hlt, Option.isNone_iff_eq_none.2 hnew⟩)
    rw [Finset.mem_filter, lookup_mark, if_pos rfl] at hmem
    cases hmem.2

/-- While the parts of a slot are looked at, the slot is not done. -/
theorem Settled.mark_active (h : arena.Settled start s) (index : ℕ) :
    arena.Settled start ((index, .active) :: s) := by
  intro other hother
  rw [lookup_mark] at hother
  split at hother
  · cases hother
  · exact h other hother

/-- It is around its parts. -/
theorem Surrounds.mark_active {part id : TypeId} (h : arena.Surrounds start s id)
    (hpart : arena.Inside start part id) :
    arena.Surrounds start ((id.index, .active) :: s) part := by
  intro around hlook
  rw [lookup_mark] at hlook
  split at hlook
  · next heq =>
    obtain rfl : around = id := congrArg TypeId.mk heq
    exact .single hpart
  · exact .head hpart (h around hlook)

/-- A slot all of whose parts are done is done. -/
theorem Settled.mark_done (h : arena.Settled start s) {id : TypeId}
    (hparts : ∀ part, arena.Inside start part id → s.lookup part.index = some .done) :
    arena.Settled start ((id.index, .done) :: s) := by
  intro other hother
  rw [lookup_mark] at hother
  split at hother
  · next heq =>
    obtain rfl : other = id := congrArg TypeId.mk heq
    exact .intro other fun part hpart => h part (hparts part hpart)
  · exact h other hother

/-- A slot that was marked for the first time is no longer being looked at once it is done. -/
theorem Proceeds.mark_done {index : ℕ} (h : Proceeds ((index, .active) :: s) t)
    (hnew : s.lookup index = none) :
    Proceeds s ((index, .done) :: t) where
  kept := by
    intro other progress hold
    rw [lookup_mark]
    split
    · next heq => rw [heq, hnew] at hold; cases hold
    · next hne =>
      refine h.kept other progress ?_
      rw [lookup_mark, if_neg hne, hold]
  active := by
    intro other hlook
    rw [lookup_mark] at hlook
    split at hlook
    · cases hlook
    · next hne =>
      have hbefore := h.active other hlook
      rwa [lookup_mark, if_neg hne] at hbefore

/-! ### The search -/

/-- From a settled state on, a search ends with some slots done, or stops at a cycle. -/
def Searches (arena : Arena) (start : ℕ) (s : List (ℕ × Progress)) (ids : List TypeId)
    (x : Search Unit) : Prop :=
  Ensures s x
    (fun _ t => arena.Settled start t ∧ Proceeds s t ∧ ∀ id ∈ ids, t.lookup id.index = some .done)
    fun id _ => TransGen (arena.Inside start) id id

/-- What visits a slot that has not been looked at. -/
def Visits (arena : Arena) (start : ℕ) (s : List (ℕ × Progress))
    (visit : TypeId → Search Unit) : Prop :=
  ∀ t id, Proceeds s t → arena.Settled start t → arena.Surrounds start t id →
    id.index < arena.size → t.lookup id.index = none → arena.Searches start t [id] (visit id)

theorem searches_explore {visit : TypeId → Search Unit}
    (hvisit : arena.Visits start s visit) {id : TypeId} (hst : Proceeds s t)
    (ht : arena.Settled start t) (haround : arena.Surrounds start t id)
    (hlt : id.index < arena.size) : arena.Searches start t [id] (explore visit id) := by
  refine Ensures.get_bind ?_
  split
  · next hnew => exact hvisit t id hst ht haround hlt hnew
  · next hactive => exact haround id hactive
  · next hdone => exact ⟨ht, Proceeds.refl t, by simpa using hdone⟩

theorem searches_forM {visit : TypeId → Search Unit} (hvisit : arena.Visits start s visit)
    (ids : List TypeId) (hst : Proceeds s t) (ht : arena.Settled start t)
    (hids : ∀ id ∈ ids, arena.Surrounds start t id ∧ id.index < arena.size) :
    arena.Searches start t ids (ids.forM (explore visit)) := by
  induction ids generalizing t with
  | nil => exact ⟨ht, Proceeds.refl t, by simp⟩
  | cons id rest ih =>
    change Ensures t (explore visit id >>= fun _ => rest.forM (explore visit)) _ _
    obtain ⟨haround, hlt⟩ := hids id List.mem_cons_self
    refine Ensures.bind (searches_explore hvisit hst ht haround hlt) ?_
    rintro _ u ⟨hu, htu, hdone⟩
    refine Ensures.mono (ih (hst.trans htu) hu fun other ho => ?_) ?_ fun _ _ h => h
    · obtain ⟨haround, hlt⟩ := hids other (List.mem_cons_of_mem _ ho)
      exact ⟨haround.later htu, hlt⟩
    · rintro _ v ⟨hv, huv, hall⟩
      refine ⟨hv, htu.trans huv, fun other ho => ?_⟩
      rcases List.mem_cons.1 ho with rfl | ho
      · exact huv.kept _ _ (hdone other (List.mem_singleton_self _))
      · exact hall other ho

/-- With as many levels as there are slots to look at, a visit is not cut short. -/
theorem visits_visit (depth : ℕ) (hdepth : arena.unseen s ≤ depth) :
    arena.Visits start s (arena.visit start depth) := by
  induction depth generalizing s with
  | zero =>
    intro t id hst _ _ hlt hnew
    have hmarked := unseen_mark hlt hnew .active
    have := hst.unseen_le arena
    omega
  | succ depth ih =>
    intro t id hst ht haround hlt hnew
    have hmarked := unseen_mark hlt hnew .active
    have hle := hst.unseen_le arena
    have hvisit := ih (s := (id.index, .active) :: t) (by omega)
    have hparts := searches_forM hvisit (arena.partsFrom start id).reverse
      (Proceeds.refl ((id.index, .active) :: t)) (ht.mark_active id.index) (by
        intro part hpart
        have hinside : arena.Inside start part id := List.mem_reverse.1 hpart
        exact ⟨haround.mark_active hinside, (inside_iff.1 hinside).2.2⟩)
    change Ensures t (modify ((id.index, .active) :: ·) >>= fun _ => _) _ _
    refine Ensures.bind (p := fun _ u => u = (id.index, .active) :: t) rfl ?_
    rintro _ u rfl
    refine Ensures.bind hparts ?_
    rintro _ u ⟨hu, htu, hdone⟩
    refine ⟨hu.mark_done fun part hpart => hdone part (List.mem_reverse.2 hpart),
      htu.mark_done hnew, ?_⟩
    intro other hother
    obtain rfl := List.mem_singleton.1 hother
    exact (lookup_mark u _ _ _).trans (if_pos rfl)

theorem searches_visitAll (arena : Arena) (start : ℕ) :
    arena.Searches start [] ((List.range' start (arena.size - start)).map TypeId.mk)
      (arena.visitAll start) := by
  have hvisit : arena.Visits start [] (arena.visit start (arena.size + 1)) :=
    visits_visit (arena.size + 1) ((unseen_le_size []).trans (Nat.le_succ _))
  have hids : ∀ id ∈ (List.range' start (arena.size - start)).map TypeId.mk,
      arena.Surrounds start [] id ∧ id.index < arena.size := by
    intro id hid
    obtain ⟨index, hindex, rfl⟩ := List.mem_map.1 hid
    rw [List.mem_range'_1] at hindex
    refine ⟨fun _ h => (nomatch h), ?_⟩
    dsimp only
    omega
  have hrun := searches_forM hvisit _ (Proceeds.refl []) (fun _ h => (nomatch h)) hids
  rwa [List.forM_eq_forM, List.forM_map] at hrun

/-- If the search finds nothing, the parts of a slot's parts come to an end. -/
theorem acc_of_cycle?_eq_none (h : arena.cycle? start = none) {id : TypeId}
    (hstart : start ≤ id.index) (hlt : id.index < arena.size) : Acc (arena.Inside start) id := by
  have hrun := searches_visitAll arena start
  unfold cycle? at h
  split at h
  · next t ht =>
    obtain ⟨hsettled, -, hdone⟩ := hrun.of_ok ht
    refine hsettled id (hdone id (List.mem_map.2 ⟨id.index, ?_, rfl⟩))
    rw [List.mem_range'_1]
    omega
  · cases h

/-- A slot that the search finds contains itself. -/
theorem cycle?_sound {id : TypeId} (h : arena.cycle? start = some id) :
    TransGen arena.PartOf id id := by
  have hrun := searches_visitAll arena start
  unfold cycle? at h
  split at h
  · cases h
  · next found t ht =>
    obtain rfl := Option.some.inj h
    exact TransGen.mono (fun _ _ hpart => Inside.partOf hpart) _ _ (hrun.of_error ht)

/-! ### Growing arenas -/

theorem mem_references_of_mandatory {layout : Layout} {id : TypeId} (h : id ∈ layout.mandatory) :
    id ∈ layout.references := by
  cases layout with
  | struct l =>
    obtain ⟨field, hfield, hid⟩ := List.mem_filterMap.1 h
    refine List.mem_filterMap.2 ⟨field, hfield, ?_⟩
    unfold FieldLayout.mandatory? at hid
    unfold FieldLayout.reference?
    split at hid
    · next hc => rw [hc]; exact hid
    · next hc => rw [hc]; exact hid
    · cases hid
  | array a =>
    simp only [Layout.mandatory] at h
    split at h
    · exact h
    · cases h
  | synonym | padded => exact h
  | primitive | enum | list | bytes => cases h

/-- If old slots have old parts only, then whatever lies inside an old slot is old. -/
theorem transGen_partOf_of_old {a b : Arena}
    (hold : ∀ part id, b.PartOf part id → id.index < a.size →
      a.PartOf part id ∧ part.index < a.size)
    {part id : TypeId} (hpart : TransGen b.PartOf part id) (hlt : id.index < a.size) :
    TransGen a.PartOf part id ∧ part.index < a.size := by
  induction hpart using TransGen.head_induction_on with
  | single hpart => exact ⟨.single (hold _ _ hpart hlt).1, (hold _ _ hpart hlt).2⟩
  | head hpart _ ih => exact ⟨.head (hold _ _ hpart ih.2).1 ih.1, (hold _ _ hpart ih.2).2⟩

/-- **New slots close no cycle.** If old slots have old parts and the search finds nothing among the
new slots, an arena is as free of cycles as it was before. -/
theorem Acyclic.extend {a b : Arena} (ha : a.Acyclic)
    (hold : ∀ part id, b.PartOf part id → id.index < a.size →
      a.PartOf part id ∧ part.index < a.size)
    (hnew : ∀ part id, b.PartOf part id → part.index < b.size ∧ id.index < b.size)
    (hcycle : b.cycle? a.size = none) : b.Acyclic := by
  intro id hself
  rcases Nat.lt_or_ge id.index a.size with hlt | hge
  · exact ha id (transGen_partOf_of_old hold hself hlt).1
  · -- what lies around a new slot is new, so the search has followed the whole cycle
    have hup : ∀ part around, b.PartOf part around → a.size ≤ part.index →
        b.Inside a.size part around := by
      intro part around hpart hpartge
      exact inside_iff.2 ⟨hpart, hpartge, (hnew _ _ hpart).1⟩
    have hge' : ∀ part around, b.PartOf part around → a.size ≤ part.index →
        a.size ≤ around.index := by
      intro part around hpart hpartge
      by_contra hlt
      exact absurd (hold _ _ hpart (Nat.lt_of_not_le hlt)).2 (Nat.not_lt_of_le hpartge)
    have hfollowed : ∀ around, TransGen b.PartOf id around →
        TransGen (b.Inside a.size) id around ∧ a.size ≤ around.index := by
      intro around haround
      induction haround with
      | single h => exact ⟨.single (hup _ _ h hge), hge' _ _ h hge⟩
      | tail _ h ih => exact ⟨ih.1.tail (hup _ _ h ih.2), hge' _ _ h ih.2⟩
    have hlt : id.index < b.size := by
      obtain ⟨part, -, hpart⟩ := TransGen.tail'_iff.1 hself
      exact (hnew _ _ hpart).2
    exact not_transGen_of_acc (acc_of_cycle?_eq_none hcycle hge hlt) (hfollowed id hself).1

/-- A new slot with old parts closes no cycle. -/
theorem Acyclic.push {a : Arena} {type : CompiledType} (ha : a.Acyclic)
    (hparts : ∀ part id, a.PartOf part id → part.index < a.size)
    (htype : ∀ part ∈ type.layout.mandatory, part.index < a.size) : (a.push type).2.Acyclic := by
  have hpart : ∀ part id, (a.push type).2.PartOf part id → part.index < a.size := by
    rintro part id ⟨found, hid, hmem⟩
    rw [Arena.get?_push] at hid
    split at hid
    · obtain rfl := Option.some.inj hid
      exact htype part hmem
    · exact hparts part id ⟨found, hid, hmem⟩
  have hold : ∀ part id, (a.push type).2.PartOf part id → id.index < a.size →
      a.PartOf part id ∧ part.index < a.size := by
    rintro part id hmem hlt
    refine ⟨?_, hpart part id hmem⟩
    obtain ⟨found, hid, hmem⟩ := hmem
    rw [Arena.get?_push, if_neg (Nat.ne_of_lt hlt)] at hid
    exact ⟨found, hid, hmem⟩
  intro id hself
  -- what lies inside anything is old, and what it lies inside itself is
  obtain ⟨part, hinside, -⟩ := TransGen.head'_iff.1 hself
  exact ha id (transGen_partOf_of_old hold hself (hpart _ _ hinside)).1

end Wireform.Arena
