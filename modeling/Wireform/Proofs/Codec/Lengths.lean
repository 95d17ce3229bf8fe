import Mathlib.Data.ENat.Lattice
import Wireform.Proofs.Codec.Writes
import Wireform.Proofs.Layout.Walk

/-!
# Lower and upper bounds hold

In an arena all of whose slots are filled, an encoding that succeeds appends at most
the stored upper bound, and at least the lower bound that the walk over the arena
finds: the shortest encodings solve the inequations of which the walk stays below every
solution.

* `Grounded.writes`: both bounds, at any number of levels.
* `minSize_le_shortest`: the walk stays below the shortest encoding.
-/

namespace Wireform.Arena

/-- Every slot holds a type that was built over the arena. -/
structure Grounded (arena : Arena) : Prop where
  filled : ∀ id : TypeId, id.index < arena.size → ∃ type, arena.get? id = some type
  builds : ∀ id type, arena.get? id = some type → arena.Builds type.layout type.maxSize

/-- Some value of a type has an encoding of so many bytes. -/
def Encodes (arena : Arena) (id : TypeId) (length : ℕ) : Prop :=
  ∃ levels value buffer after, arena.encodeWithin levels id value buffer = .ok () after ∧
    after.size = buffer.size + length

/-- The least length of an encoding; it is infinite if there is none. -/
noncomputable def shortest (arena : Arena) (id : TypeId) : ℕ∞ :=
  ⨅ (length : ℕ) (_ : arena.Encodes id length), (length : ℕ∞)

variable {arena : Arena}

theorem shortest_le {id : TypeId} {length : ℕ} (h : arena.Encodes id length) :
    arena.shortest id ≤ length := iInf₂_le length h

/-- A type that carries a primitive is encoded as the primitive. -/
theorem Carries.encodeWithin {id : TypeId} {p : Primitive} (h : arena.Carries id p) :
    ∃ levels, ∀ value, arena.encodeWithin levels id value = p.encode value := by
  induction h with
  | primitive hid hl =>
    refine ⟨1, fun value => ?_⟩
    simp only [Arena.encodeWithin, hid, Codec.encodeStep, hl]
  | synonym hid hl _ ih =>
    obtain ⟨levels, ih⟩ := ih
    refine ⟨levels + 1, fun value => ?_⟩
    simp only [Arena.encodeWithin, hid, Codec.encodeStep, hl, ih]

theorem greatest_eq {id : TypeId} {type : CompiledType} (hid : arena.get? id = some type) :
    arena.greatest id = type.maxSize.value := by
  rw [greatest, maxSize, hid]

namespace Grounded

variable (h : arena.Grounded)

include h

/-- The bound of a type covers the primitive that it carries. -/
theorem maxSize_le_of_carries {id : TypeId} {p : Primitive} (hc : arena.Carries id p) :
    p.maxSize.value ≤ arena.greatest id := by
  induction hc with
  | primitive hid hl =>
    have := (h.builds _ _ hid).bound
    rw [hl] at this
    rwa [greatest_eq hid]
  | synonym hid hl _ ih =>
    have := (h.builds _ _ hid).bound
    rw [hl] at this
    rw [greatest_eq hid]
    exact ih.trans this

theorem writes_le (levels : ℕ) {id : TypeId} (hid : id.index < arena.size) (value : Json) :
    Writes 0 (arena.greatest id) (arena.encodeWithin levels id value) := by
  induction levels generalizing id value with
  | zero => exact fun _ _ _ heq => nomatch heq
  | succ levels ih =>
    obtain ⟨type, htype⟩ := h.filled id hid
    have hbuilds := h.builds id type htype
    simp only [Arena.encodeWithin, htype]
    -- only upper bounds are meant here, so every part may have no bytes
    refine (Codec.writes_encodeStep (fun _ => 0) arena.greatest type.layout value hbuilds.numbered
      (fun part hpart => ih (hbuilds.references part hpart)) ?_).mono zero_le ?_
    · intro a p ha hp item
      exact (writes_primitive p item).mono zero_le
        (h.maxSize_le_of_carries (hbuilds.numeric a p ha hp))
    · rw [greatest_eq htype]
      exact hbuilds.bound

/-- **Both bounds, at any number of levels.** -/
theorem writes (levels : ℕ) {id : TypeId} (hid : id.index < arena.size) (value : Json) :
    Writes (arena.shortest id) (arena.greatest id) (arena.encodeWithin levels id value) := by
  intro buffer
  have hle := h.writes_le levels hid value buffer
  unfold Ensures at *
  split at hle
  · next after hrun =>
    obtain ⟨n, hn, -, hgn⟩ := hle
    -- this very encoding is one of those of which `shortest` is the least
    exact ⟨n, hn, shortest_le ⟨levels, value, buffer, after, hrun, hn⟩, hgn⟩
  · exact hle

/-- The shortest encodings of the parts bound those of the whole. -/
theorem least_le_shortest {id : TypeId} {type : CompiledType} (hid : arena.get? id = some type) :
    type.layout.least arena.shortest ≤ arena.shortest id := by
  refine le_iInf₂ fun length hlength => ?_
  obtain ⟨levels, value, buffer, after, hrun, hsize⟩ := hlength
  have hbuilds := h.builds id type hid
  cases levels with
  | zero => cases hrun
  | succ levels =>
    simp only [Arena.encodeWithin, hid] at hrun
    -- an encoding is one of the layout, a level further in
    have hwrites := Codec.writes_encodeStep arena.shortest arena.greatest type.layout value
      hbuilds.numbered
      (fun part hpart => h.writes levels (hbuilds.references part hpart)) ?_ buffer
    · obtain ⟨n, hn, hln, -⟩ := hwrites.of_ok hrun
      obtain rfl : n = length := by omega
      exact hln
    · intro a p ha hp item
      -- numbers that are read directly are encodings of their type all the same
      obtain ⟨levels', heq⟩ := (hbuilds.numeric a p ha hp).encodeWithin
      rw [← heq item]
      refine h.writes levels' (hbuilds.references a.element ?_) item
      rw [ha]
      exact List.mem_singleton_self _

end Grounded

/-- **The walk stays below the shortest encoding.** -/
theorem Grounded.minSize_le_shortest (h : arena.Grounded) (id : TypeId) :
    (arena.minSize id : ℕ∞) ≤ arena.shortest id :=
  (minSize_le_least id).trans (least_le (fun _ _ hid => h.least_le_shortest hid) id)

end Wireform.Arena
