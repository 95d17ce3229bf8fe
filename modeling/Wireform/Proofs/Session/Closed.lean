import Wireform.Proofs.Layout.Containment
import Wireform.Proofs.Session.Resolution

/-!
# Sessions between two calls

Between two calls nothing is being compiled: every slot is filled, no entry is locked,
no block is open, and no type contains itself. A call of `atomically` that succeeds leaves
nothing open that was not open before, so it ends in a closed session again, which has all
that the first one has. One that fails is rolled back, and since it has only grown the
session, this gives back the very session it started from.

* `ensures_atomically`: both ends of a call.
* `closed_initial`, `closed_define`: the sessions from which compiling starts.
-/

namespace Wireform.Session

/-- Nothing is being compiled, and no type contains itself. -/
structure Closed (s : Session) : Prop extends Valid s where
  filled : ∀ i : ℕ, s.arena.slots[i]? ≠ some none
  acyclic : s.arena.Acyclic
  unlocked : ∀ (i : ℕ) scope key slot inner, s.scopes[i]? = some scope →
    (key, Entry.locked slot inner) ∉ scope.entries
  depth : s.depth = 0
  journal : s.journal = []
  root_lt : root.index < s.scopes.size

variable {s t u : Session} {α : Type}

namespace Closed

variable (h : s.Closed)

include h

/-- In a closed session every slot holds a type. -/
theorem get? {id : TypeId} (hid : id.index < s.arena.size) :
    ∃ type, s.arena.get? id = some type := by
  have hslot := h.filled id.index
  have hlt : id.index < s.arena.slots.size := hid
  have hget : s.arena.slots[id.index]? = some s.arena.slots[id.index] :=
    Array.getElem?_eq_getElem hlt
  cases hs : s.arena.slots[id.index] with
  | none => rw [hget, hs] at hslot; exact absurd rfl hslot
  | some type => exact ⟨type, by rw [Arena.get?, hget, hs]; rfl⟩

/-- The mandatory parts of a slot that was there before were there before. -/
theorem partOf (hst : Advances s t) {part id : TypeId} (hpart : t.arena.PartOf part id)
    (hlt : id.index < s.arena.size) : s.arena.PartOf part id ∧ part.index < s.arena.size := by
  obtain ⟨type, hid, hmem⟩ := hpart
  obtain ⟨before, hbefore⟩ := h.get? hlt
  obtain rfl := Option.some.inj (hid.symm.trans (hst.toGrows.persists.get? hbefore))
  exact ⟨⟨type, hbefore, hmem⟩,
    (h.types id type hbefore).builds.references part (Arena.mem_references_of_mandatory hmem)⟩

/-- What has advanced from a closed session is closed once the journal is forgotten, unless a new
type contains itself. -/
theorem advanced (hst : Advances s t) (hacyclic : t.arena.Acyclic) :
    Closed { t with journal := [] } where
  types := fun id type hid =>
    have := hst.valid.types id type hid
    ⟨this.builds, this.scope⟩
  scopes := fun i scope hi => (hst.valid.scopes i scope hi).mono (Nat.le_refl _) (Nat.le_refl _)
  emptyTuple := hst.valid.emptyTuple
  filled := by
    intro i hi
    -- an empty slot would have been one of the old ones
    have hlt := hst.filled i hi
    obtain ⟨more, hm⟩ := hst.slots
    refine h.filled i ?_
    rw [← hi]
    change _ = t.arena.slots[i]?
    rw [hm, Array.getElem?_append_left hlt]
  acyclic := hacyclic
  unlocked := by
    intro i scope key slot inner hi hl
    obtain ⟨before, hb, hl⟩ := hst.unlocked i scope key slot inner hi hl
    exact h.unlocked i before key slot inner hb hl
  depth := hst.depth.trans h.depth
  journal := rfl
  root_lt := hst.scope_lt h.root_lt

theorem commit (hst : Advances s t) (hcycle : t.arena.cycle? s.arena.size = none) :
    (t.commit s.checkpoint).Closed := by
  have hjournal : t.commit s.checkpoint = { t with journal := [] } := by
    change ({ t with journal := t.journal.drop (t.journal.length - s.journal.length) } : Session) =
      _
    rw [h.journal, List.length_nil, Nat.sub_zero, List.drop_length]
  rw [hjournal]
  refine h.advanced hst
    (h.acyclic.extend (fun part id hpart hlt => h.partOf hst hpart hlt) ?_ hcycle)
  rintro part id ⟨type, hid, hmem⟩
  exact ⟨(hst.valid.types id type hid).builds.references part
    (Arena.mem_references_of_mandatory hmem), Arena.lt_size_of_get? _ hid⟩

/-- A type that is built over the arena leaves the session closed. -/
theorem push {type : CompiledType} (ht : s.Holds type) :
    Closed { s with arena := (s.arena.push type).2 } := by
  have hclosed := h.advanced (advances_push h.toValid ht) (h.acyclic.push ?_ ?_)
  · rwa [← h.journal] at hclosed
  · rintro part id ⟨found, hid, hmem⟩
    exact (h.types id found hid).builds.references part (Arena.mem_references_of_mandatory hmem)
  · exact fun part hmem => ht.builds.references part (Arena.mem_references_of_mandatory hmem)

theorem rollback (hst : Grows s t) : t.rollback s.checkpoint = s := by
  refine hst.rollback h.depth fun id hid => ?_
  obtain ⟨type, ht, -⟩ := h.emptyTuple id hid
  exact s.arena.lt_size_of_get? ht

end Closed

/-! ### Calls -/

/-- A step and the check of the types that it made. -/
def checked (start : ℕ) (step : Compile α) : Compile α := do
  let result ← step
  checkContainment start
  return result

/-- A call keeps what passes the check, and undoes all else. -/
theorem atomically_of_ok {step : Compile α} {a : α}
    (h : checked s.checkpoint.slots step s = .ok a t) :
    atomically step s = .ok a (t.commit s.checkpoint) := by
  unfold checked at h
  unfold atomically
  dsimp only
  rw [h]

theorem atomically_of_error {step : Compile α} {stop : Stop CompileError}
    (h : checked s.checkpoint.slots step s = .error stop t) :
    atomically step s = .error stop (t.rollback s.checkpoint) := by
  unfold checked at h
  unfold atomically
  dsimp only
  rw [h]

theorem sound_checkContainment (hs : s.Valid) (start : ℕ) :
    s.Sound (checkContainment start) fun _ t => t = s ∧ s.arena.cycle? start = none := by
  unfold checkContainment
  refine Sound.get_bind ?_
  dsimp only
  split
  · exact Sound.fail (by simp)
  · next hnone => exact Sound.pure hs ⟨rfl, hnone⟩

/-- What compiles a top-level name, without the check. -/
def nameStep (levels : ℕ) (name : String) : Compile Unit := do
  match (← get).lookup? root name false with
  | none => .fail (.undefinedType name)
  | some home =>
    let _ ← resolveEntry (resolveType levels) home name

/-- **Both ends of a call.** It succeeds and leaves nothing open, or it leaves no trace. -/
theorem ensures_atomically {step : Compile α} {post : α → Session → Prop} (hs : s.Closed)
    (hstep : s.Sound step post) :
    Ensures s (atomically step)
      (fun a t => t.Closed ∧ Persists s t ∧ ∃ u, post a u ∧ t = u.commit s.checkpoint)
      fun stop t => t = s ∧ stop.Ordinary := by
  have hchecked : s.Sound (checked s.checkpoint.slots step) fun a u =>
      post a u ∧ u.arena.cycle? s.arena.size = none := by
    refine Sound.bind hstep fun a t hst ha => ?_
    refine Sound.bind (sound_checkContainment hst.valid _) ?_
    rintro _ u htu ⟨rfl, hcycle⟩
    exact Sound.pure htu.valid ⟨ha, hcycle⟩
  -- the containment check belongs to the call, so its failure is undone as well
  unfold Ensures
  unfold Sound Ensures at hchecked
  split at hchecked
  · next a u hrun =>
    rw [atomically_of_ok hrun]
    obtain ⟨hsu, ha, hcycle⟩ := hchecked
    have hkept := hsu.toGrows.persists
    exact ⟨hs.commit hsu hcycle, ⟨hkept.slots, hkept.scopes⟩, u, ha, rfl⟩
  · next stop u hrun =>
    rw [atomically_of_error hrun]
    obtain ⟨hsu, hordinary⟩ := hchecked
    exact ⟨hs.rollback hsu, hordinary⟩

/-! ### Before anything is compiled -/

theorem holds_primitive (name : String) (p : Primitive) : s.Holds (primitiveType name p) :=
  ⟨⟨by simp [primitiveType, Layout.references], le_rfl, by simp [primitiveType],
    by simp [primitiveType]⟩, by simp [primitiveType]⟩

theorem initial_slot {options : Options} {i : ℕ} {slot : Option CompiledType}
    (h : (initial options).arena.slots[i]? = some slot) :
    ∃ name p, slot = some (primitiveType name p) := by
  simp only [initial, List.getElem?_toArray, List.getElem?_map, Option.map_eq_some_iff] at h
  obtain ⟨⟨name, p⟩, -, rfl⟩ := h
  exact ⟨name, p, rfl⟩

theorem initial_type {options : Options} {id : TypeId} {type : CompiledType}
    (h : (initial options).arena.get? id = some type) : ∃ name p, type = primitiveType name p := by
  have hlt := Arena.lt_size_of_get? _ h
  obtain ⟨name, p, hslot⟩ := initial_slot (Array.getElem?_eq_getElem hlt)
  rw [Arena.get?, Array.getElem?_eq_getElem hlt, hslot] at h
  exact ⟨name, p, (Option.some.inj h).symm⟩

theorem mem_rootEntries {key : String} {entry : Entry} (h : (key, entry) ∈ rootEntries) :
    (∃ i, i < Primitive.registry.length ∧ entry = .compiled ⟨i⟩) ∨
      ∃ builtin, entry = .deferred (.builtin builtin) := by
  rcases List.mem_append.1 h with h | h
  · obtain ⟨⟨found, i⟩, hi, heq⟩ := List.mem_map.1 h
    obtain ⟨-, rfl⟩ := Prod.mk.inj heq
    have := List.snd_lt_of_mem_zipIdx hi
    exact Or.inl ⟨i, by omega, rfl⟩
  · obtain ⟨builtin, -, heq⟩ := List.mem_map.1 h
    obtain ⟨-, rfl⟩ := Prod.mk.inj heq
    exact Or.inr ⟨builtin, rfl⟩

theorem initial_scope_index {options : Options} {i : ℕ} {scope : Scope}
    (h : (initial options).scopes[i]? = some scope) : i = root.index := by
  have hi : i < 1 := (Array.getElem?_eq_some_iff.1 h).1
  change i = 0
  omega

theorem initial_scope {options : Options} {i : ℕ} {scope : Scope}
    (h : (initial options).scopes[i]? = some scope) : scope = ⟨none, [], rootEntries, []⟩ := by
  obtain rfl := initial_scope_index h
  exact (Option.some.inj h).symm

theorem closed_initial (options : Options) : (initial options).Closed where
  types := by
    intro id type h
    obtain ⟨name, p, rfl⟩ := initial_type h
    exact holds_primitive name p
  scopes := by
    intro i scope h
    obtain rfl := initial_scope_index h
    rw [initial_scope h]
    refine ⟨by simp, ?_, by simp [Assoc.get?], fun _ _ => Or.inl rfl⟩
    intro key entry he
    rcases mem_rootEntries he with ⟨i, hi, rfl⟩ | ⟨builtin, rfl⟩
    · simpa [Entry.Refers, initial, Arena.size] using hi
    · trivial
  emptyTuple := fun _ h => nomatch h
  filled := by
    intro i h
    obtain ⟨name, p, h⟩ := initial_slot h
    cases h
  acyclic := by
    -- primitives have no parts
    intro id hself
    obtain ⟨part, -, type, hid, hmem⟩ := Relation.TransGen.tail'_iff.1 hself
    obtain ⟨name, p, rfl⟩ := initial_type hid
    cases hmem
  unlocked := by
    intro i scope key slot inner h hl
    rw [initial_scope h] at hl
    rcases mem_rootEntries hl with ⟨i, -, h⟩ | ⟨builtin, h⟩ <;> cases h
  depth := rfl
  journal := rfl
  root_lt := Nat.zero_lt_one

/-- One more definition, under a name that has no entry. -/
theorem HoldsScope.define {i : ℕ} {scope : Scope} {name : String} (h : s.HoldsScope i scope)
    (hnew : name ∉ scope.entries.keys) (definition : Definition) :
    s.HoldsScope i { scope with definitions := scope.definitions ++ [(name, definition)] } where
  parent := h.parent
  entries := h.entries
  templates := by
    intro key template he other hd
    have hne : name ≠ key := by
      rintro rfl
      exact hnew (Assoc.mem_keys he)
    simp only [Assoc.get?_append, Assoc.get?, if_neg hne, Option.or_none] at hd
    exact h.templates key template he other hd
  keys := by
    intro key hk
    refine (h.keys key hk).imp_right (Or.imp_left fun hkey => ?_)
    rw [Assoc.keys, List.map_append]
    exact List.mem_append_left _ hkey

theorem closed_define {name : String} {definition : Definition} (hs : s.Closed)
    (h : s.define name definition = .ok t) : t.Closed := by
  obtain ⟨rfl, -, hnew⟩ := eq_of_define h
  have hsize := size_changeScope s root fun top =>
    { top with definitions := top.definitions ++ [(name, definition)] }
  -- only the definitions of the root change
  have hscopes : ∀ (i : ℕ) scope, (s.changeScope root fun top =>
      { top with definitions := top.definitions ++ [(name, definition)] }).scopes[i]? = some scope →
      ∃ before, s.scopes[i]? = some before ∧ (scope = before ∨ before = s.scope root ∧
        scope = { before with definitions := before.definitions ++ [(name, definition)] }) := by
    intro i scope hi
    rw [getElem?_changeScope] at hi
    split at hi
    · next hroot =>
      subst hroot
      obtain ⟨before, hb, rfl⟩ := Option.map_eq_some_iff.1 hi
      exact ⟨before, hb, Or.inr ⟨(scope_eq hb).symm, rfl⟩⟩
    · exact ⟨scope, hi, Or.inl rfl⟩
  refine ⟨hs.toValid.step (Arena.Extends.refl _) hsize.ge (fun _ _ => Or.inl) ?_ fun _ => Or.inl,
    hs.filled, hs.acyclic, ?_, hs.depth, hs.journal, hs.root_lt.trans_eq hsize.symm⟩
  · intro i scope hi
    obtain ⟨before, hb, heq⟩ := hscopes i scope hi
    have hold := (hs.scopes i before hb).mono (t := s.changeScope root _) le_rfl hsize.ge
    rcases heq with rfl | ⟨rfl, rfl⟩
    · exact Or.inr hold
    · exact Or.inr (hold.define hnew definition)
  · intro i scope key slot inner hi hl
    obtain ⟨before, hb, heq⟩ := hscopes i scope hi
    refine hs.unlocked i before key slot inner hb ?_
    rcases heq with rfl | ⟨-, rfl⟩
    · exact hl
    · exact hl

end Wireform.Session
