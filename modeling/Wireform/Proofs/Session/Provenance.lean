import Wireform.Proofs.Session.Closed
import Wireform.Proofs.Session.Steps

/-!
# Where enums and keys come from

Each enum of a session is the outcome of a run that compiled its block: slots are filled with
enums in no other way, and what has been compiled stays. So whatever holds of all such runs holds
of all enums. In the same way a key leads to a slot only if the block for which the slot was
reserved began under this key.

* `Steps.traced`: each enum has a run behind it.
* `Steps.slotAt?_iff`: which keys lead to a slot is settled when the slot comes.
-/

namespace Wireform.Session

variable {s t u v : Session} {home : ScopeId} {key : Option String} {slot : TypeId}
  {nested : Option ScopeId}

/-! ### Enums -/

/-- A step keeps what is in the slots. -/
theorem Step.precedes (hst : Step s t) : Precedes s t := by
  cases hst with
  | adds _ grown emptyTuple _ _ =>
    exact ⟨⟨grown.size_le, fun _ _ hid => grown.get? hid⟩, emptyTuple⟩
  | begins _ _ _ _ _ begun => exact begun.precedes
  | ends _ _ _ begun body ended _ => exact begun.precedes_end body ended

theorem Steps.precedes (hst : Steps s t) : Precedes s t := by
  induction hst with
  | refl => exact .refl _
  | tail _ hstep ih => exact ih.trans hstep.precedes

/-- Behind each enum there is a run that has compiled it, and what has happened since are steps. -/
def Traced (s : Session) : Prop :=
  ∀ id type e, s.arena.get? id = some type → type.layout = .enum e →
    ∃ r : EnumRun, r.slot = id ∧ Steps r.after s

/-- Only a block that ends leaves an enum, and then there is its own run behind it. -/
theorem Step.traced (hst : Step s t) (h : s.Traced) : t.Traced := by
  intro id type e hid hl
  -- an enum that was there before has its run already
  have hold : s.arena.get? id = some type → ∃ r :
      EnumRun, r.slot = id ∧ Steps r.after t := fun hthen => by
    obtain ⟨r, hr, hsteps⟩ := h id type e hthen hl
    exact ⟨r, hr, hsteps.tail hst⟩
  cases hst with
  | adds _ _ _ plain _ => exact hold (plain id type e hid hl)
  | begins _ _ _ _ _ begun =>
    rw [begun.arena, Arena.get?_reserve] at hid
    exact hold hid
  | ends _ _ _ begun body ended enum =>
    rw [ended.arena, Arena.get?_fill] at hid
    split at hid
    · next hslot =>
      obtain rfl := Option.some.inj hid
      obtain ⟨r, hr, rfl⟩ := enum e hl
      exact ⟨r, hr.trans (congrArg TypeId.mk hslot.1), .refl⟩
    · exact hold hid

theorem Steps.traced (hst : Steps s t) (h : s.Traced) : t.Traced := by
  induction hst with
  | refl => exact h
  | tail _ hstep ih => exact hstep.traced ih

/-! ### Keys -/

/-- A key that leads to a slot stands in a namespace that exists. -/
theorem lt_size_of_slotAt? {key : String} (h : s.slotAt? home key = some slot) :
    home.index < s.scopes.size := by
  by_contra hge
  rw [slotAt?, scope_of_size_le (Nat.le_of_not_lt hge)] at h
  cases h

/-- A key leads to a slot that exists. -/
theorem Valid.slotAt?_lt (hs : s.Valid) {key : String} (h : s.slotAt? home key = some slot) :
    slot.index < s.arena.size := by
  have hhome := lt_size_of_slotAt? h
  obtain ⟨entry, hentry, hslot⟩ := Option.bind_eq_some_iff.1 h
  have hrefers := hs.entry hhome hentry
  cases entry with
  | compiled id =>
    obtain rfl := Option.some.inj hslot
    exact hrefers
  | deferred template => cases hslot
  | locked id inner =>
    obtain rfl := Option.some.inj hslot
    exact hrefers.1

/-- A key still leads where it led. -/
theorem slotAt?_of_persists {key : String} (h : Persists s t)
    (hslot : s.slotAt? home key = some slot) :
    t.slotAt? home key = some slot := by
  obtain ⟨entry, hentry, hleads⟩ := Option.bind_eq_some_iff.1 hslot
  exact Option.bind_eq_some_iff.2 ⟨entry, h.entry (lt_size_of_slotAt? hslot) hentry, hleads⟩

/-- When a block begins, its key leads to its slot, and all others lead where they led before. -/
theorem Begun.slotAt? (h : Begun s t home key slot nested) (hhome : home.index < s.scopes.size)
    (hkey : ∀ k ∈ key, k ∉ (s.scope home).entries.keys) (other : ScopeId) (k : String) :
    t.slotAt? other k = if other = home ∧ k ∈ key then some slot else s.slotAt? other k := by
  unfold Session.slotAt?
  by_cases hother : other.index < s.scopes.size
  · have hafter := h.scopes other.index _ (getElem?_scopes hother)
    by_cases hsame : other = home
    · subst hsame
      rw [scope_eq hafter, if_pos rfl]
      simp only [Assoc.get?_append, true_and]
      split
      · next hk =>
        have hnone := (Assoc.get?_eq_none_iff _ _).2 (hkey k hk)
        obtain rfl := Option.mem_def.1 hk
        rw [hnone, Option.none_or]
        simp [keyed, Assoc.get?, Entry.slot?]
      · next hk =>
        have hnone : (keyed key (.locked slot nested)).get? k = none := by
          rw [Assoc.get?_eq_none_iff]
          intro hmem
          obtain ⟨entry, he, rfl⟩ := List.mem_map.1 hmem
          obtain ⟨k', hk', rfl⟩ := List.mem_map.1 he
          exact hk (by simpa using hk')
        rw [hnone, Option.or_none]
    · have hindex : home.index ≠ other.index := fun heq => hsame (congrArg ScopeId.mk heq.symm)
      rw [scope_eq hafter, if_neg hindex, if_neg fun hand => hsame hand.1]
  · -- namespaces that have come have no entries yet
    have hsame : other ≠ home := by
      rintro rfl
      exact hother hhome
    rw [if_neg fun hand => hsame hand.1, scope_of_size_le (s := s) (Nat.le_of_not_lt hother)]
    by_cases hnew : other.index < t.scopes.size
    · have hafter := getElem?_scopes hnew
      rw [(h.fresh other.index _ hafter (Nat.le_of_not_lt hother)).2]
    · rw [scope_of_size_le (Nat.le_of_not_lt hnew)]

/-- Settling an entry does not change where it leads. -/
theorem slot?_settled {entries : Assoc Entry}
    (hown : ∀ k ∈ key, (entries.get? k).bind Entry.slot? = some slot) (k : String) :
    ((settled key slot entries).get? k).bind Entry.slot? = (entries.get? k).bind Entry.slot? := by
  cases key with
  | none => rfl
  | some own =>
    rw [settled, Option.elim_some]
    by_cases hk : k = own
    · subst hk
      rw [hown k rfl, Assoc.get?_put_self]
      rfl
    · rw [Assoc.get?_put_of_ne _ _ hk]

/-- When it ends, all keys lead where they led before. -/
theorem Begun.slotAt?_end (h : Begun s t home key slot nested) (hhome : home.index < s.scopes.size)
    (hkey : ∀ k ∈ key, k ∉ (s.scope home).entries.keys) (hu : Grows t u) {type : CompiledType}
    (he : Ended u v home key slot type) (other : ScopeId) (k : String) :
    v.slotAt? other k = u.slotAt? other k := by
  -- the block's own key still leads to its slot
  have hown : ∀ k ∈ key, u.slotAt? home k = some slot := by
    intro k hk
    have hthen := h.slotAt? hhome hkey home k
    rw [if_pos ⟨rfl, hk⟩] at hthen
    exact slotAt?_of_persists hu.persists hthen
  unfold Session.slotAt?
  by_cases hother : other.index < u.scopes.size
  · have hafter := he.scopes other.index
    rw [getElem?_scopes hother, Option.map_some] at hafter
    rw [scope_eq hafter, settledScope]
    split
    · next hindex =>
      obtain rfl : home = other := congrArg ScopeId.mk hindex
      exact slot?_settled hown k
    · rfl
  · have hafter : v.scopes.size ≤ other.index := by rw [he.scopes_size]; omega
    rw [scope_of_size_le hafter, scope_of_size_le (Nat.le_of_not_lt hother)]

/-- A step keeps where the keys lead, or it begins a block, whose new key leads to a new slot. -/
theorem Step.slotAt? (hst : Step s t) : (∀ home key, t.slotAt? home key = s.slotAt? home key) ∨
    s.Valid ∧ ∃ (home : ScopeId) (key : Option String),
      (∀ k ∈ key, s.slotAt? home k = none) ∧ ∀ other k,
      t.slotAt? other k = if other = home ∧ k ∈ key then some ⟨s.arena.size⟩
        else s.slotAt? other k := by
  cases hst with
  | adds _ _ _ _ slotAt? => exact Or.inl slotAt?
  | @begins _ _ home key slot nested valid home_lt fresh _ _ begun =>
    obtain rfl : slot = ⟨s.arena.size⟩ := congrArg TypeId.mk begun.slot_eq
    refine Or.inr ⟨valid, home, key, fun k hk => ?_, begun.slotAt? home_lt fresh⟩
    rw [Session.slotAt?, (Assoc.get?_eq_none_iff _ _).2 (fresh k hk), Option.bind_none]
  | ends _ home_lt fresh begun body ended _ =>
    exact Or.inl (begun.slotAt?_end home_lt fresh body ended)

theorem Step.valid (hst : Step s t) : t.Valid := by
  cases hst with
  | adds valid _ _ _ _ => exact valid
  | begins valid home_lt _ admits _ begun => exact begun.valid valid home_lt admits
  | ends valid _ _ _ _ _ _ => exact valid

theorem Step.size_le (hst : Step s t) : s.arena.size ≤ t.arena.size := by
  cases hst with
  | adds _ grown _ _ _ => exact grown.size_le
  | begins _ _ _ _ _ begun => exact begun.arena_extends.size_le
  | ends _ _ _ _ _ ended _ => rw [ended.arena, Arena.size_fill]

theorem Steps.size_le (hst : Steps s t) : s.arena.size ≤ t.arena.size := by
  induction hst with
  | refl => exact Nat.le_refl _
  | tail _ hstep ih => exact ih.trans hstep.size_le

theorem Steps.valid (hst : Steps s t) (hs : s.Valid) : t.Valid := by
  cases hst with
  | refl => exact hs
  | tail _ hstep => exact hstep.valid

/-- Which keys lead to a slot does not change once the slot is there. -/
theorem Step.slotAt?_iff (hst : Step s t) (hslot : slot.index < s.arena.size) {key : String} :
    t.slotAt? home key = some slot ↔ s.slotAt? home key = some slot := by
  rcases hst.slotAt? with hsame | ⟨hs, begun, own, hfresh, hnew⟩
  · rw [hsame]
  · rw [hnew]
    split
    · next hown =>
      obtain ⟨rfl, hk⟩ := hown
      rw [hfresh key hk]
      refine ⟨fun heq => ?_, nofun⟩
      obtain rfl := Option.some.inj heq
      exact absurd hslot (Nat.lt_irrefl _)
    · rfl

theorem Steps.slotAt?_iff (hst : Steps s t) (hslot : slot.index < s.arena.size) {key : String} :
    t.slotAt? home key = some slot ↔ s.slotAt? home key = some slot := by
  induction hst with
  | refl => rfl
  | tail hsu hstep ih => exact (hstep.slotAt?_iff (hslot.trans_le (Steps.size_le hsu))).trans ih

end Wireform.Session
