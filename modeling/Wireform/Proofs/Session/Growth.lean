import Mathlib.Order.Basic
import Wireform.Proofs.Ensures
import Wireform.Session.Resolution

/-!
# Sessions grow, and a rollback takes the growth back

`Grows s t`: between `s` and `t` slots and namespaces were added behind the old ones,
and old namespaces got entries under new keys only, every one of them noted in the
journal. No entry was overwritten, so removing the noted keys restores the old ones.

* `Grows.persists`: what was there stays there.
* `Grows.trans`: growth adds up.
* `Grows.rollback`: rolled back to where `s` was, `t` is `s` again.
-/

namespace Wireform

/-- What a namespace becomes: entries are added under new keys, which are all noted. -/
def Scope.Extended (noted : List (ScopeId × String)) (id : ScopeId) (before after : Scope) : Prop :=
  ∃ added : Assoc Entry, after = { before with entries := before.entries ++ added } ∧
    (∀ entry ∈ added, (id, entry.1) ∈ noted) ∧
    ∀ key, (id, key) ∈ noted → key ∉ before.entries.keys

namespace Scope.Extended

theorem trans {noted noted' : List (ScopeId × String)} {id : ScopeId}
    {a b c : Scope} (hab : a.Extended noted id b) (hbc : b.Extended noted' id c) :
    a.Extended (noted' ++ noted) id c := by
  obtain ⟨added, rfl, hadded, hnew⟩ := hab
  obtain ⟨added', rfl, hadded', hnew'⟩ := hbc
  refine ⟨added ++ added', by simp, ?_, ?_⟩
  · intro entry he
    rcases List.mem_append.1 he with he | he
    · exact List.mem_append_right _ (hadded entry he)
    · exact List.mem_append_left _ (hadded' entry he)
  · intro key hk
    rcases List.mem_append.1 hk with hk | hk
    -- what is new later was not there at first either
    · have := hnew' key hk
      simp only [Assoc.keys, List.map_append, List.mem_append, not_or] at this
      exact this.1
    · exact hnew key hk

theorem refl (id : ScopeId) (a : Scope) : a.Extended [] id a :=
  ⟨[], by simp, by simp, by simp⟩

end Scope.Extended

namespace Session

/-- From `s` to `t` things were only added, and the journal tells which entries. -/
structure Grows (s t : Session) : Prop where
  options : t.options = s.options
  slots : ∃ more, t.arena.slots = s.arena.slots ++ more
  scopes : ∃ noted, t.journal = noted ++ s.journal ∧ ∀ (i : Nat) (before : Scope),
    s.scopes[i]? = some before → ∃ after, t.scopes[i]? = some after ∧
      before.Extended noted ⟨i⟩ after
  emptyTuple : t.emptyTuple = s.emptyTuple ∨
    s.emptyTuple = none ∧ ∃ id, t.emptyTuple = some id ∧ s.arena.size ≤ id.index

variable {s t u : Session}

/-! ### Namespaces -/

/-- A namespace that is there. -/
theorem scope_eq {id : ScopeId} {scope : Scope} (h : s.scopes[id.index]? = some scope) :
    s.scope id = scope := by
  simp [Session.scope, h]

theorem getElem?_scopes {id : ScopeId} (h : id.index < s.scopes.size) :
    s.scopes[id.index]? = some (s.scope id) := by
  rw [Array.getElem?_eq_getElem h]
  simp [Session.scope, h]

/-- A namespace that does not exist is empty. -/
theorem scope_of_size_le {id : ScopeId} (h : s.scopes.size ≤ id.index) :
    s.scope id = ⟨none, [], [], []⟩ := by
  rw [Session.scope, Array.getElem?_eq_none h, Option.getD_none]

/-- The namespaces behind which one more is opened. -/
theorem scope_push (s : Session) (opened : Scope) (id : ScopeId) :
    ({ s with scopes := s.scopes.push opened } : Session).scope id =
      if id.index = s.scopes.size then opened else s.scope id := by
  simp only [Session.scope, Array.getElem?_push]
  split <;> rfl

theorem getElem?_changeScope (s : Session) (id : ScopeId) (change : Scope → Scope) (i : Nat) :
    (s.changeScope id change).scopes[i]? =
      if id.index = i then s.scopes[i]?.map change else s.scopes[i]? := by
  simp [changeScope, Array.getElem?_modify]

theorem size_changeScope (s : Session) (id : ScopeId) (change : Scope → Scope) :
    (s.changeScope id change).scopes.size = s.scopes.size := Array.size_modify

/-- The namespaces of which one is changed, if it is there. -/
theorem scope_changeScope (s : Session) (home : ScopeId) (change : Scope → Scope) (id : ScopeId) :
    (s.changeScope home change).scope id =
      if home = id ∧ id.index < s.scopes.size then change (s.scope id) else s.scope id := by
  rw [Session.scope, getElem?_changeScope]
  by_cases hlt : id.index < s.scopes.size
  · rw [getElem?_scopes hlt]
    by_cases heq : home = id
    · rw [if_pos (congrArg ScopeId.index heq), if_pos ⟨heq, hlt⟩]
      rfl
    · rw [if_neg fun hindex => heq (congrArg ScopeId.mk hindex), if_neg fun hboth => heq hboth.1]
      rfl
  · have hge := Nat.le_of_not_lt hlt
    rw [Array.getElem?_eq_none hge, Option.map_none, ite_self, if_neg fun hboth => hlt hboth.2,
      scope_of_size_le hge]
    rfl

/-- A name that has been defined is one more definition of the root, and was new there. -/
theorem eq_of_define {name : String} {definition : Definition}
    (h : s.define name definition = .ok t) :
    t = s.changeScope root
      (fun top => { top with definitions := top.definitions ++ [(name, definition)] }) ∧
      name ∉ (s.scope root).definitions.keys ∧ name ∉ (s.scope root).entries.keys := by
  unfold define at h
  dsimp only at h
  split at h
  · cases h
  · next hnew =>
    simp only [Bool.or_eq_true, not_or, Assoc.contains, Bool.not_eq_true,
      Option.isSome_eq_false_iff, Option.isNone_iff_eq_none, Assoc.get?_eq_none_iff] at hnew
    exact ⟨(Except.ok.inj h).symm, hnew⟩

/-! ### What was there stays there -/

/-- All that a session has is still there: further slots and namespaces stand behind the old ones,
further entries behind the old ones of their namespace. -/
structure Persists (s t : Session) : Prop where
  slots : ∃ more, t.arena.slots = s.arena.slots ++ more
  scopes : ∀ (i : ℕ) before, s.scopes[i]? = some before →
    ∃ added : Assoc Entry, t.scopes[i]? = some { before with entries := before.entries ++ added }

theorem Grows.persists (h : Grows s t) : Persists s t where
  slots := h.slots
  scopes := by
    obtain ⟨noted, -, hs⟩ := h.scopes
    intro i before hb
    obtain ⟨_, ha, added, rfl, -⟩ := hs i before hb
    exact ⟨added, ha⟩

namespace Persists

theorem refl (s : Session) : Persists s s :=
  ⟨⟨#[], by simp⟩, fun _ before h => ⟨[], by simpa using h⟩⟩

theorem trans (hst : Persists s t) (htu : Persists t u) : Persists s u where
  slots := by
    obtain ⟨more, hm⟩ := hst.slots
    obtain ⟨more', hm'⟩ := htu.slots
    exact ⟨more ++ more', by rw [hm', hm, Array.append_assoc]⟩
  scopes := by
    intro i before hb
    obtain ⟨added, hmid⟩ := hst.scopes i before hb
    obtain ⟨added', hafter⟩ := htu.scopes i _ hmid
    exact ⟨added ++ added', by rw [hafter, List.append_assoc]⟩

variable (h : Persists s t)

include h

theorem size_le : s.arena.size ≤ t.arena.size := by
  obtain ⟨more, hm⟩ := h.slots
  simp only [Arena.size, hm, Array.size_append]
  omega

theorem get? {id : TypeId} {type : CompiledType} (hid : s.arena.get? id = some type) :
    t.arena.get? id = some type := by
  have hlt : id.index < s.arena.slots.size := s.arena.lt_size_of_get? hid
  obtain ⟨more, hm⟩ := h.slots
  unfold Arena.get? at *
  rwa [hm, Array.getElem?_append_left hlt]

theorem scopes_size_le : s.scopes.size ≤ t.scopes.size := by
  by_contra hlt
  have hlt : t.scopes.size < s.scopes.size := Nat.lt_of_not_le hlt
  have hb : s.scopes[t.scopes.size]? = some s.scopes[t.scopes.size] := Array.getElem?_eq_getElem hlt
  obtain ⟨added, ha⟩ := h.scopes _ _ hb
  rw [Array.getElem?_eq_none (Nat.le_refl _)] at ha
  cases ha

theorem scope {id : ScopeId} (hid : id.index < s.scopes.size) :
    ∃ added : Assoc Entry, t.scope id =
      { s.scope id with entries := (s.scope id).entries ++ added } := by
  obtain ⟨added, ha⟩ := h.scopes _ _ (getElem?_scopes hid)
  exact ⟨added, scope_eq ha⟩

/-- An entry stays as it is. -/
theorem entry {id : ScopeId} (hid : id.index < s.scopes.size) {key : String} {entry : Entry}
    (he : (s.scope id).entries.get? key = some entry) :
    (t.scope id).entries.get? key = some entry := by
  obtain ⟨added, hscope⟩ := h.scope hid
  rw [hscope, Assoc.get?_append, he]
  rfl

theorem definitions {id : ScopeId} (hid : id.index < s.scopes.size) :
    (t.scope id).definitions = (s.scope id).definitions := by
  obtain ⟨added, hscope⟩ := h.scope hid
  rw [hscope]

end Persists

/-! ### Growth adds up -/

theorem Grows.refl (s : Session) : Grows s s where
  options := rfl
  slots := ⟨#[], by simp⟩
  scopes := ⟨[], rfl, fun _ before h => ⟨before, h, Scope.Extended.refl _ _⟩⟩
  emptyTuple := Or.inl rfl

theorem Grows.trans (hst : Grows s t) (htu : Grows t u) : Grows s u where
  options := htu.options.trans hst.options
  slots := by
    obtain ⟨more, hm⟩ := hst.slots
    obtain ⟨more', hm'⟩ := htu.slots
    exact ⟨more ++ more', by rw [hm', hm, Array.append_assoc]⟩
  scopes := by
    obtain ⟨noted, hj, hs⟩ := hst.scopes
    obtain ⟨noted', hj', hs'⟩ := htu.scopes
    refine ⟨noted' ++ noted, by rw [hj', hj, List.append_assoc], ?_⟩
    intro i before hb
    obtain ⟨mid, hmid, hext⟩ := hs i before hb
    obtain ⟨after, hafter, hext'⟩ := hs' i mid hmid
    exact ⟨after, hafter, hext.trans hext'⟩
  emptyTuple := by
    rcases hst.emptyTuple with h | ⟨hn, id, hid, hle⟩ <;>
      rcases htu.emptyTuple with h' | ⟨hn', id', hid', hle'⟩
    · exact Or.inl (h'.trans h)
    · exact Or.inr ⟨h.symm.trans hn', id', hid', Nat.le_trans hst.persists.size_le hle'⟩
    · exact Or.inr ⟨hn, id, h'.trans hid, hle⟩
    · rw [hid] at hn'; cases hn'

/-! ### Rolling back -/

/-- Removing noted entries changes namespaces only. -/
theorem foldl_removeEntry (noted : List (ScopeId × String)) (t : Session) :
    ∃ scopes : Array Scope, noted.foldl removeEntry t = { t with scopes } ∧ ∀ i : Nat,
      scopes[i]? = t.scopes[i]?.map fun scope =>
        { scope with entries := scope.entries.filter fun entry => (⟨i⟩, entry.1) ∉ noted } := by
  induction noted generalizing t with
  | nil => exact ⟨t.scopes, rfl, fun i => by
      cases t.scopes[i]? with
      | none => rfl
      | some scope => simp [List.filter_eq_self.2 fun _ _ => rfl]⟩
  | cons entry rest ih =>
    obtain ⟨scopes, heq, hs⟩ := ih (t.removeEntry entry)
    refine ⟨scopes, by rw [List.foldl_cons, heq]; rfl, ?_⟩
    intro i
    rw [hs i]
    unfold removeEntry
    rw [getElem?_changeScope]
    -- one more key is missing, in its own namespace only
    by_cases hi : entry.1.index = i
    · subst hi
      rw [if_pos rfl, Option.map_map]
      congr 1
      funext scope
      simp only [Function.comp, Assoc.erase, List.filter_filter]
      congr 2
      funext e
      by_cases he : e.1 = entry.2 <;> simp [he, Prod.ext_iff]
    · rw [if_neg hi]
      congr 1
      funext scope
      congr 2
      funext e
      have : ¬(⟨i⟩ : ScopeId) = entry.1 := fun h => hi (by rw [← h])
      simp [Prod.ext_iff, this]

theorem filter_extended {noted : List (ScopeId × String)} {id : ScopeId} {before after : Scope}
    (h : before.Extended noted id after) :
    after.entries.filter (fun entry => (id, entry.1) ∉ noted) = before.entries := by
  obtain ⟨added, rfl, hadded, hnew⟩ := h
  rw [List.filter_append]
  -- old keys are not among the noted ones, and added keys all are
  have hold : before.entries.filter (fun entry => (id, entry.1) ∉ noted) = before.entries := by
    rw [List.filter_eq_self]
    intro entry he
    simp only [decide_eq_true_eq]
    exact fun hn => hnew _ hn (Assoc.mem_keys he)
  have hadd : added.filter (fun entry => (id, entry.1) ∉ noted) = [] := by
    rw [List.filter_eq_nil_iff]
    intro entry he
    simpa using hadded entry he
  rw [hold, hadd, List.append_nil]

theorem rollback_eq (point : Checkpoint) {noted : List (ScopeId × String)} {scopes : Array Scope}
    (hn : t.journal.take (t.journal.length - point.journal) = noted)
    (heq : noted.foldl removeEntry t = { t with scopes }) :
    t.rollback point =
      ⟨t.arena.truncate point.slots, scopes.take point.scopes, t.options,
        t.journal.drop (t.journal.length - point.journal), 0,
        t.emptyTuple.filter (·.index < point.slots)⟩ := by
  unfold Session.rollback
  simp only [hn, heq]

/-- **Rolling growth back gives the session that was there before.** -/
theorem Grows.rollback (h : Grows s t) (hd : s.depth = 0)
    (he : ∀ id, s.emptyTuple = some id → id.index < s.arena.size) :
    t.rollback s.checkpoint = s := by
  obtain ⟨noted, hj, hs⟩ := h.scopes
  obtain ⟨more, hm⟩ := h.slots
  have hnew : t.journal.length - s.journal.length = noted.length := by
    rw [hj, List.length_append]; omega
  obtain ⟨scopes, heq, hscopes⟩ := foldl_removeEntry noted t
  -- slots and namespaces behind the old ones are cut off
  have harena : t.arena.truncate s.arena.size = s.arena := by
    simp [Arena.truncate, Arena.size, hm, Array.extract_append]
  have hscope : scopes.take s.scopes.size = s.scopes := by
    apply Array.ext_getElem?
    intro i
    rw [Array.take_eq_extract, Array.getElem?_extract, Nat.sub_zero, Nat.zero_add]
    by_cases hi : i < s.scopes.size
    · have hb := Array.getElem?_eq_getElem hi
      obtain ⟨after, hafter, hext⟩ := hs i _ hb
      have hf := filter_extended hext
      obtain ⟨added, rfl, -⟩ := hext
      have hlt : i < scopes.size := by
        by_contra hge
        have := hscopes i
        rw [Array.getElem?_eq_none (by omega), hafter] at this
        cases this
      rw [if_pos (by omega), hscopes, hafter, hb, Option.map_some, hf]
    · rw [if_neg (by omega), Array.getElem?_eq_none (by omega)]
  -- an empty tuple that came later stands behind the old slots
  have hempty : t.emptyTuple.filter (·.index < s.arena.size) = s.emptyTuple := by
    rcases h.emptyTuple with h' | ⟨hn, id, hid, hle⟩
    · rw [h']
      cases hs : s.emptyTuple with
      | none => rfl
      | some id => simp [he id hs]
    · rw [hn, hid]
      simp; omega
  have htake : t.journal.take noted.length = noted := by rw [hj]; simp
  have hdrop : t.journal.drop noted.length = s.journal := by rw [hj]; simp
  rw [← hnew] at htake
  rw [rollback_eq s.checkpoint htake heq]
  change (⟨t.arena.truncate s.arena.size, scopes.take s.scopes.size, t.options,
    t.journal.drop (t.journal.length - s.journal.length), 0,
    t.emptyTuple.filter (·.index < s.arena.size)⟩ : Session) = s
  rw [harena, hscope, hempty, hnew, hdrop, h.options, ← hd]

end Session

end Wireform
