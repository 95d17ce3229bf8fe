import Wireform.Proofs.Session.Valid

/-!
# A block from its reservation to its layout

While the body of a block is compiled, its slot is empty, its entry is locked and the
session is one level deeper. `Begun` is what that moment adds to a session. Once the
layout is in the slot and the entry is settled, the whole block has only advanced the
session: the locked entry was the last one of its namespace when the body began, so
settling it does not touch any earlier entry.

* `sound_compileBlock`: a block is sound if its body is.
-/

namespace Wireform.Session

variable {s t u : Session} {home : ScopeId} {key : Option String} {slot : TypeId}
  {nested : Option ScopeId}

/-- What a block puts under its key. -/
def keyed (key : Option String) (entry : Entry) : Assoc Entry := key.toList.map (·, entry)

/-- The entries of a namespace once the block under a key is settled. -/
def settled (key : Option String) (slot : TypeId) (entries : Assoc Entry) : Assoc Entry :=
  key.elim entries fun k => entries.put k (.compiled slot)

/-- A namespace once the block under a key of `home` is settled. -/
def settledScope (home : ScopeId) (key : Option String) (slot : TypeId) (i : ℕ) (scope : Scope) :
    Scope :=
  if home.index = i then { scope with entries := settled key slot scope.entries } else scope

/-- Settling puts the compiled entry where the locked one was. -/
theorem settled_append {old : Assoc Entry} (hkey : ∀ k ∈ key, k ∉ old.keys) (entry : Entry)
    (added : Assoc Entry) :
    settled key slot (old ++ keyed key entry ++ added) =
      old ++ keyed key (.compiled slot) ++ added := by
  cases key with
  | none => rfl
  | some k =>
    have hk := hkey k rfl
    rw [List.append_assoc, List.append_assoc]
    change Assoc.put (old ++ (k, entry) :: added) k (.compiled slot) = _
    -- no earlier entry has the key, so the locked one is replaced
    rw [Assoc.put_append hk]
    simp [Assoc.put, keyed]

theorem mem_settled {entries : Assoc Entry} {k : String} {entry : Entry}
    (h : (k, entry) ∈ settled key slot entries) :
    (k, entry) ∈ entries ∨ k ∈ key ∧ entry = .compiled slot := by
  cases key with
  | none => exact Or.inl h
  | some k' =>
    rcases Assoc.mem_put h with h | ⟨rfl, rfl⟩
    · exact Or.inl h
    · exact Or.inr ⟨rfl, rfl⟩

/-- From `s` to `t` a block has begun: an empty slot, a locked entry and perhaps a namespace. -/
structure Begun (s t : Session) (home : ScopeId) (key : Option String) (slot : TypeId)
    (nested : Option ScopeId) : Prop where
  options : t.options = s.options
  slot_eq : slot.index = s.arena.size
  arena : t.arena = s.arena.reserve.2
  emptyTuple : t.emptyTuple = s.emptyTuple
  depth : t.depth = s.depth + 1
  journal : t.journal = key.toList.map (home, ·) ++ s.journal
  scopes_size_le : s.scopes.size ≤ t.scopes.size
  scopes : ∀ (i : ℕ) before, s.scopes[i]? = some before → t.scopes[i]? = some
    (if home.index = i
      then { before with entries := before.entries ++ keyed key (.locked slot nested) }
      else before)
  fresh : ∀ (i : ℕ) after, t.scopes[i]? = some after → s.scopes.size ≤ i →
    after.parent = some home ∧ after.entries = []
  nested : ∀ id, nested = some id → id.index < t.scopes.size

namespace Begun

variable (h : Begun s t home key slot nested)

include h

theorem getElem?_slots (i : ℕ) :
    t.arena.slots[i]? = if i = s.arena.size then some none else s.arena.slots[i]? := by
  rw [h.arena, Arena.reserve, Array.getElem?_push]
  rfl

theorem arena_extends : Arena.Extends s.arena t.arena := by
  refine ⟨by simp [h.arena], fun id type hid => ?_⟩
  rw [h.arena, Arena.get?_reserve, hid]

theorem slot_lt : slot.index < t.arena.size := by
  rw [h.arena, Arena.size_reserve, h.slot_eq]
  exact Nat.lt_succ_self _

/-- A block whose key is new has so far only grown the session. -/
theorem grows (hkey : ∀ k ∈ key, k ∉ (s.scope home).entries.keys) : Grows s t where
  options := h.options
  slots := ⟨#[none], by rw [h.arena]; simp [Arena.reserve]⟩
  scopes := by
    refine ⟨_, h.journal, fun i before hb => ⟨_, h.scopes i before hb, ?_⟩⟩
    by_cases hi : home.index = i
    · subst hi
      rw [if_pos rfl]
      refine ⟨_, rfl, ?_, ?_⟩
      · intro entry he
        obtain ⟨k, hk, rfl⟩ := List.mem_map.1 he
        exact List.mem_map.2 ⟨k, hk, rfl⟩
      · intro k hk
        obtain ⟨k', hk', heq⟩ := List.mem_map.1 hk
        obtain rfl : k' = k := congrArg Prod.snd heq
        have := hkey k' (by simpa using hk')
        rwa [scope_eq hb] at this
    · rw [if_neg hi]
      refine ⟨[], by simp, by simp, fun k hk => ?_⟩
      obtain ⟨k', -, heq⟩ := List.mem_map.1 hk
      exact absurd (congrArg (fun p => p.1.index) heq) hi
  emptyTuple := Or.inl h.emptyTuple

theorem valid (hs : s.Valid) (hhome : home.index < s.scopes.size)
    (hadmits : ∀ k ∈ key, (s.scope home).Admits home.index k) : t.Valid := by
  refine hs.step h.arena_extends h.scopes_size_le ?_ ?_ ?_
  · intro id type hid
    rw [h.arena, Arena.get?_reserve] at hid
    exact Or.inl hid
  · intro i scope hi
    by_cases hlt : i < s.scopes.size
    · have hb := Array.getElem?_eq_getElem hlt
      have ht := h.scopes i _ hb
      rw [hi] at ht
      obtain rfl := Option.some.inj ht
      by_cases hh : home.index = i
      · rw [if_pos hh]
        refine Or.inr ?_
        have hold := (hs.scopes i _ hb).mono h.arena_extends.size_le h.scopes_size_le
        refine ⟨hold.parent, ?_, ?_, ?_⟩
        · intro k entry he
          rcases List.mem_append.1 he with he | he
          · exact hold.entries k entry he
          · obtain ⟨k', -, heq⟩ := List.mem_map.1 he
            obtain rfl := congrArg Prod.snd heq
            exact ⟨h.slot_lt, h.nested⟩
        · intro k template he
          rcases List.mem_append.1 he with he | he
          · exact hold.templates k template he
          · obtain ⟨k', -, heq⟩ := List.mem_map.1 he
            cases congrArg Prod.snd heq
        · intro k hk
          rw [Assoc.keys, List.map_append, List.mem_append] at hk
          rcases hk with hk | hk
          · exact hold.keys k hk
          · obtain ⟨entry, he, rfl⟩ := List.mem_map.1 hk
            obtain ⟨k', hk', rfl⟩ := List.mem_map.1 he
            have hname := hadmits k' (by simpa using hk')
            subst hh
            rwa [scope_eq hb] at hname
      · rw [if_neg hh]
        exact Or.inl hb
    -- the namespace of the block itself, which has no entries yet
    · obtain ⟨hp, he⟩ := h.fresh i scope hi (Nat.le_of_not_lt hlt)
      refine Or.inr ⟨?_, ?_, ?_, ?_⟩
      · intro id hid
        rw [hp] at hid
        obtain rfl := Option.some.inj hid
        omega
      · intro k entry hm
        rw [he] at hm
        cases hm
      · intro k template hm
        rw [he] at hm
        cases hm
      · intro k hm
        rw [he] at hm
        cases hm
  · intro id hid
    rw [h.emptyTuple] at hid
    exact Or.inl hid

end Begun

/-- What opening a block's own namespace does. -/
theorem openLocals_eq (home : ScopeId) (locals : Option (Assoc Definition)) (bindings : Bindings) :
    ∃ nested scopes, openLocals home bindings locals s = .ok nested { s with scopes } ∧
      s.scopes.size ≤ scopes.size ∧ (∀ i : ℕ, i < s.scopes.size → scopes[i]? = s.scopes[i]?) ∧
      (∀ (i : ℕ) after, scopes[i]? = some after → s.scopes.size ≤ i →
        after.parent = some home ∧ after.entries = []) ∧
      ∀ id, nested = some id → id.index < scopes.size := by
  cases locals with
  | none =>
    refine ⟨none, s.scopes, rfl, Nat.le_refl _, fun _ _ => rfl, ?_, fun id h => nomatch h⟩
    intro i after ha hi
    rw [Array.getElem?_eq_none hi] at ha
    cases ha
  | some definitions =>
    refine ⟨some ⟨s.scopes.size⟩, s.scopes.push ⟨some home, definitions, [], bindings⟩, rfl,
      by simp, ?_, ?_, ?_⟩
    · intro i hi
      rw [Array.getElem?_push, if_neg (Nat.ne_of_lt hi)]
    · intro i after ha hi
      rw [Array.getElem?_push] at ha
      split at ha
      · obtain rfl := Option.some.inj ha
        exact ⟨rfl, rfl⟩
      · rw [Array.getElem?_eq_none hi] at ha
        cases ha
    · intro id h
      obtain rfl := Option.some.inj h
      simp

theorem beginBlock_eq (hhome : home.index < s.scopes.size) (locals : Option (Assoc Definition))
    (bindings : Bindings) (hkey : ∀ k ∈ key, k ∉ (s.scope home).entries.keys) :
    ∃ nested t, beginBlock home key locals bindings s = .ok (⟨s.arena.size⟩, nested) t ∧
      Begun s t home key ⟨s.arena.size⟩ nested := by
  obtain ⟨nested, scopes, heq, hle, hold, hnew', hin⟩ :=
    openLocals_eq (s := { s with arena := s.arena.reserve.2 }) home locals bindings
  have hrun : beginBlock home key locals bindings s =
      (do lockEntry home ⟨s.arena.size⟩ nested key
          modify fun s => { s with depth := s.depth + 1 }
          return (⟨s.arena.size⟩, nested) : Compile (TypeId × Option ScopeId))
        { s with arena := s.arena.reserve.2, scopes } := by
    exact bind_of_ok heq
  rw [hrun]
  cases key with
  | none =>
    refine ⟨nested, _, rfl, ⟨rfl, rfl, rfl, rfl, rfl, rfl, hle, ?_, hnew', hin⟩⟩
    intro i before hb
    have hi := (Array.getElem?_eq_some_iff.1 hb).1
    change scopes[i]? = _
    rw [hold i hi, hb]
    simp [keyed]
  | some k =>
    -- the namespace that was opened is not the home of the block
    have hscope : Session.scope { s with arena := s.arena.reserve.2, scopes } home =
        s.scope home := by
      simp only [Session.scope, hold home.index hhome]
    have hnew := hkey k rfl
    rw [← hscope] at hnew
    obtain ⟨entered, hinsert, hsize, hscopes⟩ :=
      insert_eq hnew (Entry.locked ⟨s.arena.size⟩ nested)
    refine ⟨nested, { s with
      arena := s.arena.reserve.2
      scopes := entered
      journal := (home, k) :: s.journal
      depth := s.depth + 1 }, ?_, ⟨rfl, rfl, rfl, rfl, rfl, rfl, ?_, ?_, ?_, ?_⟩⟩
    · exact bind_of_ok hinsert
    · rwa [hsize]
    · intro i before hb
      have hi := (Array.getElem?_eq_some_iff.1 hb).1
      exact hscopes i before ((hold i hi).trans hb)
    · intro i after ha hi
      have hlt := (Array.getElem?_eq_some_iff.1 ha).1
      rw [hsize] at hlt
      have hb := Array.getElem?_eq_getElem hlt
      rw [hscopes i _ hb, if_neg (by omega)] at ha
      obtain rfl := Option.some.inj ha
      exact hnew' i _ hb hi
    · intro id hid
      rw [hsize]
      exact hin id hid

/-- What the end of a block has made of the session in which its body ended. -/
structure Ended (u v : Session) (home : ScopeId) (key : Option String) (slot : TypeId)
    (type : CompiledType) : Prop where
  options : v.options = u.options
  arena : v.arena = u.arena.fill slot type
  emptyTuple : v.emptyTuple = u.emptyTuple
  depth : v.depth = u.depth - 1
  journal : v.journal = u.journal
  scopes_size : v.scopes.size = u.scopes.size
  scopes : ∀ i : ℕ, v.scopes[i]? = u.scopes[i]?.map (settledScope home key slot i)

theorem endBlock_eq (u : Session) (home : ScopeId) (key : Option String) (slot : TypeId)
    (type : CompiledType) :
    ∃ v, endBlock home key slot type u = .ok () v ∧ Ended u v home key slot type := by
  cases key with
  | none =>
    refine ⟨_, rfl, ⟨rfl, rfl, rfl, rfl, rfl, rfl, fun i => ?_⟩⟩
    have : settledScope home none slot i = id := by
      funext scope
      unfold settledScope
      split <;> rfl
    rw [this, Option.map_id]
    rfl
  | some k =>
    refine ⟨_, rfl, ⟨rfl, rfl, rfl, rfl, rfl, ?_, fun i => ?_⟩⟩
    · exact Array.size_modify
    · refine (getElem?_changeScope _ home _ i).trans ?_
      unfold settledScope
      by_cases hi : home.index = i
      · rw [if_pos hi]
        simp only [if_pos hi]
        rfl
      · rw [if_neg hi]
        simp only [if_neg hi]
        simp

namespace Begun

variable {v : Session} {noted : List (ScopeId × String)} (h : Begun s t home key slot nested)

include h

/-- Over a whole block a namespace gains entries under new keys, and none of them is locked unless
the body has left it so. -/
theorem extended (hkey : ∀ k ∈ key, k ∉ (s.scope home).entries.keys) {i : ℕ}
    {before mid after : Scope} (hb : s.scopes[i]? = some before) (hm : t.scopes[i]? = some mid)
    (hext : mid.Extended noted ⟨i⟩ after) :
    before.Extended (noted ++ key.toList.map (home, ·)) ⟨i⟩ (settledScope home key slot i after) ∧
      ∀ k inner locked, (k, Entry.locked inner locked) ∈
        (settledScope home key slot i after).entries →
        (k, Entry.locked inner locked) ∈ before.entries ∨
          (k, Entry.locked inner locked) ∈ after.entries ∧ k ∉ mid.entries.keys := by
  obtain ⟨added, rfl, hadded, hnew⟩ := hext
  rw [h.scopes i before hb] at hm
  obtain rfl := Option.some.inj hm
  unfold settledScope
  by_cases hi : home.index = i
  · subst hi
    rw [scope_eq hb] at hkey
    simp only [if_pos] at hnew ⊢
    -- at home the settled entry stands in front of what the body has added
    rw [settled_append hkey, List.append_assoc]
    refine ⟨⟨keyed key (.compiled slot) ++ added, rfl, ?_, ?_⟩, ?_⟩
    · intro entry he
      rcases List.mem_append.1 he with he | he
      · obtain ⟨k, hk, rfl⟩ := List.mem_map.1 he
        exact List.mem_append_right _ (List.mem_map_of_mem hk)
      · exact List.mem_append_left _ (hadded entry he)
    · intro k hk hold
      rcases List.mem_append.1 hk with hk | hk
      · refine hnew k hk ?_
        simp only [Assoc.keys, List.map_append, List.mem_append]
        exact Or.inl hold
      · obtain ⟨k', hk', heq⟩ := List.mem_map.1 hk
        obtain rfl : k' = k := congrArg Prod.snd heq
        exact hkey k' (by simpa using hk') hold
    · intro k inner locked hl
      rcases List.mem_append.1 hl with hl | hl
      · exact Or.inl hl
      rcases List.mem_append.1 hl with hl | hl
      · obtain ⟨k', -, heq⟩ := List.mem_map.1 hl
        cases congrArg Prod.snd heq
      · exact Or.inr ⟨List.mem_append_right _ hl, hnew k (hadded _ hl)⟩
  · simp only [if_neg hi] at hnew ⊢
    refine ⟨⟨added, rfl, fun entry he => List.mem_append_left _ (hadded entry he), ?_⟩, ?_⟩
    · intro k hk
      rcases List.mem_append.1 hk with hk | hk
      · exact hnew k hk
      · obtain ⟨k', -, heq⟩ := List.mem_map.1 hk
        exact absurd (congrArg (fun p => p.1.index) heq) hi
    · intro k inner locked hl
      rcases List.mem_append.1 hl with hl' | hl'
      · exact Or.inl hl'
      · exact Or.inr ⟨hl, hnew k (hadded _ hl')⟩

/-- The slot of a block stays empty while its body is compiled. -/
theorem slot_empty (hu : Grows t u) : u.arena.slots[slot.index]? = some none := by
  obtain ⟨more, hm⟩ := hu.slots
  rw [hm, Array.getElem?_append_left h.slot_lt, h.getElem?_slots, if_pos h.slot_eq]

theorem fill_extends (hu : Grows t u) (type : CompiledType) :
    Arena.Extends u.arena (u.arena.fill slot type) := by
  refine ⟨by simp, fun id found hid => ?_⟩
  rw [Arena.get?_fill]
  split
  · next hi =>
    rw [Arena.get?, ← hi.1, h.slot_empty hu] at hid
    cases hid
  · exact hid

end Begun

namespace Begun

variable {v : Session} {type : CompiledType} (h : Begun s t home key slot nested)

include h

theorem grows_end (hkey : ∀ k ∈ key, k ∉ (s.scope home).entries.keys) (hu : Grows t u)
    (he : Ended u v home key slot type) : Grows s v where
  options := he.options.trans (hu.options.trans h.options)
  slots := by
    obtain ⟨more, hm⟩ := hu.slots
    refine ⟨#[some type] ++ more, ?_⟩
    rw [he.arena, Arena.fill, hm, h.arena, h.slot_eq]
    simp only [Arena.reserve, Arena.size]
    rw [Array.push_eq_append, Array.append_assoc, Array.setIfInBounds_append_right (Nat.le_refl _),
      Nat.sub_self, Array.setIfInBounds_append_left (by simp)]
    rfl
  scopes := by
    obtain ⟨noted, hj, hs⟩ := hu.scopes
    refine ⟨noted ++ key.toList.map (home, ·), ?_, ?_⟩
    · rw [he.journal, hj, h.journal, List.append_assoc]
    · intro i before hb
      obtain ⟨after, hafter, hext⟩ := hs i _ (h.scopes i before hb)
      refine ⟨_, ?_, (h.extended hkey hb (h.scopes i before hb) hext).1⟩
      rw [he.scopes, hafter]
      rfl
  emptyTuple := by
    rw [he.emptyTuple, ← h.emptyTuple]
    rcases hu.emptyTuple with h' | ⟨hn, id, hid, hle⟩
    · exact Or.inl h'
    · refine Or.inr ⟨hn, id, hid, Nat.le_trans ?_ hle⟩
      exact h.arena_extends.size_le

theorem definitions (hhome : home.index < s.scopes.size) :
    (t.scope home).definitions = (s.scope home).definitions := by
  rw [scope_eq (h.scopes _ _ (getElem?_scopes hhome)), if_pos rfl]

/-- What is still being compiled was so before: an entry that the body has left locked was
locked when it began. -/
theorem unlocked_end (hhome : home.index < s.scopes.size)
    (hkey : ∀ k ∈ key, k ∉ (s.scope home).entries.keys) (hu : Advances t u)
    (he : Ended u v home key slot type) {i : ℕ} {after : Scope} {k : String} {inner : TypeId}
    {locked : Option ScopeId} (ha : v.scopes[i]? = some after)
    (hl : (k, Entry.locked inner locked) ∈ after.entries) :
    ∃ before, s.scopes[i]? = some before ∧ (k, Entry.locked inner locked) ∈ before.entries := by
  rw [he.scopes, Option.map_eq_some_iff] at ha
  obtain ⟨scope, hscope, rfl⟩ := ha
  by_cases hlt : i < s.scopes.size
  · have hb := Array.getElem?_eq_getElem hlt
    obtain ⟨noted, -, hscopes⟩ := hu.toGrows.scopes
    obtain ⟨after, hafter, hext⟩ := hscopes i _ (h.scopes i _ hb)
    rw [hscope] at hafter
    obtain rfl := Option.some.inj hafter
    refine ⟨_, hb, ?_⟩
    rcases (h.extended hkey hb (h.scopes i _ hb) hext).2 k inner locked hl with hold | ⟨hin, hnot⟩
    · exact hold
    · obtain ⟨mid, hmid, hml⟩ := hu.unlocked i scope k inner locked hscope hin
      rw [h.scopes i _ hb] at hmid
      obtain rfl := Option.some.inj hmid
      exact absurd (Assoc.mem_keys hml) hnot
  · rw [settledScope, if_neg (by omega)] at hl
    obtain ⟨mid, hmid, hml⟩ := hu.unlocked i scope k inner locked hscope hl
    rw [(h.fresh i mid hmid (Nat.le_of_not_lt hlt)).2] at hml
    cases hml

/-- The namespace in which the entry of the block is settled. -/
theorem holdsScope_end (hhome : home.index < s.scopes.size)
    (hadmits : ∀ k ∈ key, (s.scope home).Admits home.index k) (hu : Advances t u)
    (he : Ended u v home key slot type) {before : Scope}
    (hb : u.scopes[home.index]? = some before) :
    v.HoldsScope home.index { before with entries := settled key slot before.entries } := by
  have hext : u.arena.size ≤ v.arena.size := by
    rw [he.arena]
    exact (h.fill_extends hu.toGrows type).size_le
  have hslot : slot.index < v.arena.size := h.slot_lt.trans_le (hu.size_le.trans hext)
  have hold := (hu.valid.scopes home.index before hb).mono hext (Nat.le_of_eq he.scopes_size.symm)
  refine ⟨hold.parent, ?_, ?_, ?_⟩
  · intro k entry hm
    rcases mem_settled hm with hm | ⟨-, rfl⟩
    · exact hold.entries k entry hm
    · exact hslot
  · intro k template hm
    rcases mem_settled hm with hm | ⟨-, heq⟩
    · exact hold.templates k template hm
    · cases heq
  · intro k hk
    obtain ⟨⟨k, entry⟩, hm, rfl⟩ := List.mem_map.1 hk
    rcases mem_settled hm with hm | ⟨hkey, -⟩
    · exact hold.keys k (Assoc.mem_keys hm)
    -- the definitions at home are still those of the beginning
    · have hname := hadmits k hkey
      have hlt := hhome.trans_le h.scopes_size_le
      unfold Scope.Admits at hname ⊢
      rwa [← h.definitions hhome, ← hu.toGrows.persists.definitions hlt, scope_eq hb] at hname

theorem valid_end (hhome : home.index < s.scopes.size)
    (hadmits : ∀ k ∈ key, (s.scope home).Admits home.index k) (hu : Advances t u)
    (he : Ended u v home key slot type) (htype : u.Holds type) : v.Valid := by
  have hext : Arena.Extends u.arena v.arena := by
    rw [he.arena]
    exact h.fill_extends hu.toGrows type
  refine hu.valid.step hext (Nat.le_of_eq he.scopes_size.symm) ?_ ?_ ?_
  · intro id found hid
    rw [he.arena, Arena.get?_fill] at hid
    split at hid
    · obtain rfl := Option.some.inj hid
      refine Or.inr ⟨htype.builds.mono hext, fun scope hscope => ?_⟩
      rw [he.scopes_size]
      exact htype.scope scope hscope
    · exact Or.inl hid
  · intro i scope hi
    rw [he.scopes, Option.map_eq_some_iff] at hi
    obtain ⟨before, hb, rfl⟩ := hi
    unfold settledScope
    split
    · next hhere =>
      subst hhere
      exact Or.inr (h.holdsScope_end hhome hadmits hu he hb)
    · exact Or.inl hb
  · intro id hid
    rw [he.emptyTuple] at hid
    exact Or.inl hid

theorem advances_end (hhome : home.index < s.scopes.size)
    (hkey : ∀ k ∈ key, k ∉ (s.scope home).entries.keys)
    (hadmits : ∀ k ∈ key, (s.scope home).Admits home.index k) (hu : Advances t u)
    (he : Ended u v home key slot type) (htype : u.Holds type) : Advances s v where
  toGrows := h.grows_end hkey hu.toGrows he
  depth := by rw [he.depth, hu.depth, h.depth, Nat.add_sub_cancel]
  filled := by
    intro i hi
    rw [he.arena, Arena.fill, Array.getElem?_setIfInBounds] at hi
    split at hi
    · next hsl =>
      split at hi <;> cases hi
    · next hsl =>
      have hlt := hu.filled i hi
      rw [h.arena, Arena.size_reserve] at hlt
      have := h.slot_eq
      omega
  unlocked := fun _ _ _ _ _ ha hl => h.unlocked_end hhome hkey hu he ha hl
  valid := h.valid_end hhome hadmits hu he htype

end Begun

theorem ensures_of_eq {α : Type} {x : Compile α} {a : α} {p : α → Session → Prop}
    {failed : Stop CompileError → Session → Prop} (hx : x s = .ok a t) (h : p a t) :
    Ensures s x p failed := by
  unfold Ensures
  rw [hx]
  exact h

/-- **A block is sound if its body is.** Its slot and, if it has a key, its entry are then there. -/
theorem sound_compileBlock {resolve : Resolver} (hs : s.Valid) (hhome : home.index < s.scopes.size)
    (hkey : ∀ k ∈ key, k ∉ (s.scope home).entries.keys)
    (hadmits : ∀ k ∈ key, (s.scope home).Admits home.index k) (ident : String) (body : BlockBody)
    (bindings : Bindings)
    (hbody : ∀ (t : Session) (nested : Option ScopeId), t.Valid → home.index < t.scopes.size →
      (∀ id, nested = some id → id.index < t.scopes.size) →
      t.Sound (compileBody resolve home nested ident bindings body)
        fun r u => u.arena.Builds r.1 r.2) :
    s.Sound (compileBlock resolve home key ident body bindings) fun id t =>
      id.index < t.arena.size ∧ ∀ k ∈ key, (t.scope home).entries.get? k = some (.compiled id) := by
  unfold compileBlock
  refine Sound.get_bind ?_
  split
  · exact Sound.fail (by simp)
  obtain ⟨nested, t, hbegin, h⟩ := beginBlock_eq hhome body.locals? bindings hkey
  have hrun :=
    hbody t nested (h.valid hs hhome hadmits) (Nat.lt_of_lt_of_le hhome h.scopes_size_le) h.nested
  refine Ensures.bind (ensures_of_eq hbegin (p := fun r t' => r = (⟨s.arena.size⟩, nested) ∧ t = t')
    ⟨rfl, rfl⟩) ?_
  rintro _ _ ⟨rfl, rfl⟩
  refine Ensures.bind (p := fun r u => Advances t u ∧ u.arena.Builds r.1 r.2)
    (Ensures.mono hrun (fun _ _ hr => hr) fun _ u hu => ⟨(h.grows hkey).trans hu.1, hu.2⟩) ?_
  -- the body has succeeded, so the block ends
  rintro ⟨layout, size⟩ u ⟨hu, hbuilds⟩
  obtain ⟨v, hend, he⟩ := endBlock_eq u home key ⟨s.arena.size⟩ ⟨ident, size, layout, nested⟩
  have hadv : Advances s v := h.advances_end hhome hkey hadmits hu he
    ⟨hbuilds, fun id hid => Nat.lt_of_lt_of_le (h.nested id hid) hu.scopes_size_le⟩
  refine Ensures.bind (ensures_of_eq hend (p := fun _ v' => v = v') rfl) ?_
  rintro _ _ rfl
  refine ⟨hadv, ?_, ?_⟩
  · rw [he.arena, Arena.size_fill]
    exact Nat.lt_of_lt_of_le h.slot_lt hu.size_le
  · intro k hk
    obtain rfl : key = some k := by simpa using hk
    have hv := he.scopes home.index
    rw [getElem?_scopes (Nat.lt_of_lt_of_le (Nat.lt_of_lt_of_le hhome h.scopes_size_le)
      hu.scopes_size_le)] at hv
    rw [scope_eq hv, settledScope, if_pos rfl]
    exact Assoc.get?_put_self _ _ _

/-- A block that has been compiled has begun, then its body has been compiled, and then it has
ended. -/
theorem exists_of_compileBlock {resolve : Resolver} (hhome : home.index < s.scopes.size)
    (hkey : ∀ k ∈ key, k ∉ (s.scope home).entries.keys) {ident : String} {body : BlockBody}
    {bindings : Bindings}
    (hrun : compileBlock resolve home key ident body bindings s = .ok slot u) :
    ∃ nested t layout size v, beginBlock home key body.locals? bindings s = .ok (slot, nested) t ∧
      Begun s t home key slot nested ∧
      compileBody resolve home nested ident bindings body t = .ok (layout, size) v ∧
      Ended v u home key slot ⟨ident, size, layout, nested⟩ := by
  unfold compileBlock at hrun
  obtain ⟨_, _, ⟨⟩, hrun⟩ := exists_of_bind_ok hrun
  split at hrun
  · cases hrun
  obtain ⟨nested, t, hbegin, hbegun⟩ := beginBlock_eq hhome body.locals? bindings hkey
  obtain ⟨_, _, hfirst, hrun⟩ := exists_of_bind_ok hrun
  obtain ⟨rfl, rfl⟩ := EStateM.Result.ok.inj (hbegin.symm.trans hfirst)
  obtain ⟨⟨layout, size⟩, v, hbody, hrun⟩ := exists_of_bind_ok hrun
  obtain ⟨_, _, hlast, hrun⟩ := exists_of_bind_ok hrun
  obtain ⟨v', hend, hended⟩ := endBlock_eq v home key ⟨s.arena.size⟩ ⟨ident, size, layout, nested⟩
  obtain ⟨-, rfl⟩ := EStateM.Result.ok.inj (hend.symm.trans hlast)
  obtain ⟨rfl, rfl⟩ := EStateM.Result.ok.inj hrun
  exact ⟨nested, t, layout, size, v, hbegin, hbegun, hbody, hended⟩

/-- A block that fails is too deep, or it has begun and its body has failed. -/
theorem stop_of_compileBlock {resolve : Resolver} (hhome : home.index < s.scopes.size)
    (hkey : ∀ k ∈ key, k ∉ (s.scope home).entries.keys) {ident : String} {body : BlockBody}
    {bindings : Bindings} {stop : Stop CompileError}
    (hrun : compileBlock resolve home key ident body bindings s = .error stop u) :
    stop = .failure (.recursionLimit ident s.options.maxDepth) ∨
    ∃ nested t, beginBlock home key body.locals? bindings s = .ok (⟨s.arena.size⟩, nested) t ∧
      Begun s t home key ⟨s.arena.size⟩ nested ∧
      compileBody resolve home nested ident bindings body t = .error stop u := by
  unfold compileBlock at hrun
  rw [get_bind] at hrun
  split at hrun
  · exact Or.inl (EStateM.Result.error.inj hrun).1.symm
  obtain ⟨nested, t, hbegin, hbegun⟩ := beginBlock_eq hhome body.locals? bindings hkey
  refine Or.inr ⟨nested, t, hbegin, hbegun, ?_⟩
  rw [bind_of_ok hbegin] at hrun
  rcases error_of_bind hrun with hbody | ⟨⟨layout, size⟩, v, -, hrun⟩
  · exact hbody
  · -- the end of a block does not fail
    obtain ⟨w, hend, -⟩ := endBlock_eq v home key ⟨s.arena.size⟩ ⟨ident, size, layout, nested⟩
    cases (bind_of_ok hend).symm.trans hrun

end Wireform.Session
