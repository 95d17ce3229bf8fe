import Wireform.Proofs.Layout.Built
import Wireform.Proofs.Session.Growth

/-!
# Compilation steps

While a type is being compiled its slot is empty and its entry locked, so a session
in the middle of a compilation is not closed. What holds at every moment is `Valid`:
whatever refers to a slot or a namespace refers to one that exists, and every filled
slot holds a layout as the compiler builds it.

A step that succeeds leaves open only what was open before (`Advances`); one that
fails has at least only grown the session. `Sound` says both.

* `Sound.bind`: one step after another.
* `Advances.trans`: what a run of steps leaves open was open before it.
-/

namespace Wireform

/-- What an entry refers to exists. -/
def Entry.Refers (s : Session) : Entry → Prop
  | .compiled id => id.index < s.arena.size
  | .deferred _ => True
  | .locked slot inner =>
    slot.index < s.arena.size ∧ ∀ id, inner = some id → id.index < s.scopes.size

theorem Entry.Refers.mono {s t : Session} {entry : Entry} (h : entry.Refers s)
    (hsize : s.arena.size ≤ t.arena.size) (hscopes : s.scopes.size ≤ t.scopes.size) :
    entry.Refers t := by
  cases entry with
  | compiled id => exact Nat.lt_of_lt_of_le h hsize
  | deferred => trivial
  | locked slot inner =>
    exact ⟨Nat.lt_of_lt_of_le h.1 hsize, fun id hid => Nat.lt_of_lt_of_le (h.2 id hid) hscopes⟩

/-- A definition with parameters. -/
def Definition.IsTemplate : Definition → Prop
  | .template .. => True
  | _ => False

/-- A key under which a namespace may have an entry: the name of one of its definitions or the text
of an instance. The root also has the standard names. -/
def Scope.Admits (scope : Scope) (i : ℕ) (key : String) : Prop :=
  i = Session.root.index ∨ key ∈ scope.definitions.keys ∨ '<' ∈ key.toList

/-- Not the report that a resolved reference leads to an empty slot. -/
def Stop.Ordinary (stop : Stop CompileError) : Prop :=
  ∀ text, stop ≠ .failure (.violation (.emptySlot text))

namespace Session

/-- A type is built over the arena, and its namespace exists. -/
structure Holds (s : Session) (type : CompiledType) : Prop where
  builds : s.arena.Builds type.layout type.maxSize
  scope : ∀ id, type.scope = some id → id.index < s.scopes.size

/-- A namespace lies inside an earlier one, and refers to what exists. -/
structure HoldsScope (s : Session) (i : ℕ) (scope : Scope) : Prop where
  parent : ∀ id, scope.parent = some id → id.index < i
  entries : ∀ key entry, (key, entry) ∈ scope.entries → entry.Refers s
  templates : ∀ key template, (key, Entry.deferred template) ∈ scope.entries →
    ∀ definition, scope.definitions.get? key = some definition → definition.IsTemplate
  keys : ∀ key ∈ scope.entries.keys, scope.Admits i key

/-- What holds at every moment of a compilation. -/
structure Valid (s : Session) : Prop where
  types : ∀ id type, s.arena.get? id = some type → s.Holds type
  scopes : ∀ (i : ℕ) scope, s.scopes[i]? = some scope → s.HoldsScope i scope
  emptyTuple : ∀ id, s.emptyTuple = some id →
    ∃ type, s.arena.get? id = some type ∧ type.layout = .struct ⟨.tuple, 0, []⟩

/-- A step that succeeded: nothing is left open that was not open before. -/
structure Advances (s t : Session) : Prop extends Grows s t where
  depth : t.depth = s.depth
  filled : ∀ i : ℕ, t.arena.slots[i]? = some none → i < s.arena.size
  unlocked : ∀ (i : ℕ) after key slot inner, t.scopes[i]? = some after →
    (key, Entry.locked slot inner) ∈ after.entries →
    ∃ before, s.scopes[i]? = some before ∧ (key, Entry.locked slot inner) ∈ before.entries
  valid : t.Valid

/-- From `s` on, a result satisfies `post` and nothing new is left open; an error has only grown
the session. -/
def Sound {α : Type} (s : Session) (x : Compile α) (post : α → Session → Prop) : Prop :=
  Ensures s x (fun a t => Advances s t ∧ post a t) fun stop t => Grows s t ∧ stop.Ordinary

variable {s t u : Session} {α β : Type}

/-! ### Steps add up -/

theorem Grows.extends (h : Grows s t) : Arena.Extends s.arena t.arena :=
  ⟨h.persists.size_le, fun _ _ hid => h.persists.get? hid⟩

theorem Advances.refl (h : s.Valid) : Advances s s where
  toGrows := Grows.refl s
  depth := rfl
  filled := fun i hi => by
    by_contra hge
    rw [Array.getElem?_eq_none (Nat.le_of_not_lt hge)] at hi
    cases hi
  unlocked := fun i after _ _ _ ha hl => ⟨after, ha, hl⟩
  valid := h

theorem Advances.trans (hst : Advances s t) (htu : Advances t u) : Advances s u where
  toGrows := hst.toGrows.trans htu.toGrows
  depth := htu.depth.trans hst.depth
  filled := by
    intro i hi
    -- a slot that is empty at the end was there and empty in between
    have hlt : i < t.arena.slots.size := htu.filled i hi
    obtain ⟨more, hm⟩ := htu.slots
    rw [hm, Array.getElem?_append_left hlt] at hi
    exact hst.filled i hi
  unlocked := by
    intro i after key slot inner ha hl
    obtain ⟨mid, hmid, hl'⟩ := htu.unlocked i after key slot inner ha hl
    exact hst.unlocked i mid key slot inner hmid hl'
  valid := htu.valid

theorem Advances.size_le (h : Advances s t) : s.arena.size ≤ t.arena.size :=
  h.toGrows.persists.size_le

theorem Advances.scopes_size_le (h : Advances s t) : s.scopes.size ≤ t.scopes.size :=
  h.toGrows.persists.scopes_size_le

namespace Sound

variable {x : Compile α} {post : α → Session → Prop}

theorem mono {post' : α → Session → Prop} (h : s.Sound x post)
    (hp : ∀ a t, Advances s t → post a t → post' a t) : s.Sound x post' :=
  Ensures.mono h (fun a t ha => ⟨ha.1, hp a t ha.1 ha.2⟩) fun _ _ hf => hf

/-- **One step after another.** -/
theorem bind {f : α → Compile β} {p : α → Session → Prop} {post' : β → Session → Prop}
    (h : s.Sound x p) (hf : ∀ a t, Advances s t → p a t → t.Sound (f a) post') :
    s.Sound (x >>= f) post' := by
  apply Ensures.bind (p := fun a t => Advances s t ∧ p a t) h
  rintro a t ⟨hst, ha⟩
  exact Ensures.mono (hf a t hst ha) (fun b u hb => ⟨hst.trans hb.1, hb.2⟩)
    fun stop u hu => ⟨hst.toGrows.trans hu.1, hu.2⟩

theorem map {f : α → β} {p : α → Session → Prop} {post' : β → Session → Prop} (h : s.Sound x p)
    (hf : ∀ a t, Advances s t → p a t → post' (f a) t) : s.Sound (f <$> x) post' := by
  rw [map_eq_pure_bind]
  refine h.bind fun a t hst ha => ?_
  exact ⟨Advances.refl hst.valid, hf a t hst ha⟩

theorem pure {a : α} (hs : s.Valid) (h : post a s) : s.Sound (Pure.pure a) post :=
  ⟨Advances.refl hs, h⟩

theorem fail {error : CompileError} (h : ∀ text, error ≠ .violation (.emptySlot text)) :
    s.Sound (.fail error) post :=
  ⟨Grows.refl s, fun text heq => h text (by cases heq; rfl)⟩

/-- What is known of a result is known of the result of the run. -/
theorem run (h : s.Sound x post) : s.Sound x fun a t => x s = .ok a t ∧ post a t := by
  unfold Sound Ensures at *
  split at h
  · next hrun => exact ⟨h.1, hrun, h.2⟩
  · exact h

/-- What is known of a result in two ways. -/
theorem and {post' : α → Session → Prop} (h : s.Sound x post) (h' : s.Sound x post') :
    s.Sound x fun a t => post a t ∧ post' a t := by
  unfold Sound Ensures at *
  cases hrun : x s with
  | ok a t =>
    rw [hrun] at h h'
    exact ⟨h.1, h.2, h'.2⟩
  | error stop t =>
    rw [hrun] at h
    exact h

theorem get_bind {f : Session → Compile β} {post' : β → Session → Prop} (h : s.Sound (f s) post') :
    s.Sound (get >>= f) post' := h

theorem orFail {x : Except CompileError α} (hs : s.Valid)
    (hx : ∀ error, x = .error error → ∀ text, error ≠ .violation (.emptySlot text))
    (h : ∀ a, x = .ok a → post a s) : s.Sound (Session.orFail x) post := by
  cases x with
  | ok a => exact pure hs (h a rfl)
  | error error => exact fail (hx error rfl)

end Sound

/-- The upper bound that is stored now. -/
theorem sound_maxSize (hs : s.Valid) (id : TypeId) :
    s.Sound (maxSize id) fun size t => size = t.arena.maxSize id :=
  Sound.get_bind (Sound.pure hs rfl)

/-! ### What stays valid -/

theorem HoldsScope.mono {i : ℕ} {scope : Scope} (h : s.HoldsScope i scope)
    (hsize : s.arena.size ≤ t.arena.size) (hscopes : s.scopes.size ≤ t.scopes.size) :
    t.HoldsScope i scope where
  parent := h.parent
  entries := fun key entry he => (h.entries key entry he).mono hsize hscopes
  templates := h.templates
  keys := h.keys

/-- A session is valid if what it has beyond an earlier valid one holds. -/
theorem Valid.step (hs : s.Valid) (hext : Arena.Extends s.arena t.arena)
    (hle : s.scopes.size ≤ t.scopes.size)
    (types : ∀ id type, t.arena.get? id = some type →
      s.arena.get? id = some type ∨ t.Holds type)
    (scopes : ∀ (i : ℕ) scope, t.scopes[i]? = some scope →
      s.scopes[i]? = some scope ∨ t.HoldsScope i scope)
    (emptyTuple : ∀ id, t.emptyTuple = some id → s.emptyTuple = some id ∨
      ∃ type, t.arena.get? id = some type ∧ type.layout = .struct ⟨.tuple, 0, []⟩) : t.Valid where
  types := by
    intro id type h
    rcases types id type h with h | h
    · have := hs.types id type h
      exact ⟨this.builds.mono hext, fun scope hsc => (this.scope scope hsc).trans_le hle⟩
    · exact h
  scopes := by
    intro i scope h
    rcases scopes i scope h with h | h
    · exact (hs.scopes i scope h).mono hext.size_le hle
    · exact h
  emptyTuple := by
    intro id h
    rcases emptyTuple id h with h | h
    · obtain ⟨type, ht, hl⟩ := hs.emptyTuple id h
      exact ⟨type, hext.get? id type ht, hl⟩
    · exact h

/-! ### Single operations -/

theorem extends_push (arena : Arena) (type : CompiledType) :
    Arena.Extends arena (arena.push type).2 := by
  refine ⟨by simp, fun id found h => ?_⟩
  have hlt := arena.lt_size_of_get? h
  rw [Arena.get?_push, if_neg (Nat.ne_of_lt hlt), h]

theorem advances_push (hs : s.Valid) {type : CompiledType} (ht : s.Holds type) :
    Advances s { s with arena := (s.arena.push type).2 } where
  options := rfl
  slots := ⟨#[some type], by simp [Arena.push]⟩
  scopes := ⟨[], rfl, fun _ before h => ⟨before, h, Scope.Extended.refl _ _⟩⟩
  emptyTuple := Or.inl rfl
  depth := rfl
  filled := by
    intro i hi
    simp only [Arena.push, Array.getElem?_push] at hi
    split at hi
    · cases hi
    · exact (Array.getElem?_eq_some_iff.1 hi).1
  unlocked := fun i after _ _ _ ha hl => ⟨after, ha, hl⟩
  valid := by
    have hext := extends_push s.arena type
    refine hs.step (t := { s with arena := (s.arena.push type).2 }) hext (Nat.le_refl _) ?_ ?_ ?_
    · intro id found h
      change (s.arena.push type).2.get? id = some found at h
      rw [Arena.get?_push] at h
      split at h
      · obtain rfl := Option.some.inj h
        exact Or.inr ⟨ht.builds.mono hext, ht.scope⟩
      · exact Or.inl h
    · exact fun i scope h => Or.inl h
    · exact fun id h => Or.inl h

/-- A new slot with a type. -/
theorem sound_push (hs : s.Valid) {type : CompiledType} (ht : s.Holds type) :
    s.Sound (push type) fun id t => t.arena.get? id = some type := by
  refine ⟨advances_push hs ht, ?_⟩
  change (s.arena.push type).2.get? ⟨s.arena.size⟩ = some type
  rw [Arena.get?_push, if_pos rfl]

theorem advances_openScope (hs : s.Valid) {scope : Scope} {parent : ScopeId}
    (hparent : scope.parent = some parent) (hp : parent.index < s.scopes.size)
    (he : scope.entries = []) : Advances s { s with scopes := s.scopes.push scope } where
  options := rfl
  slots := ⟨#[], by simp⟩
  scopes := ⟨[], rfl, fun i before h => ⟨before, by
    have hlt := (Array.getElem?_eq_some_iff.1 h).1
    rw [Array.getElem?_push_lt hlt]; rw [← h, Array.getElem?_eq_getElem hlt],
      Scope.Extended.refl _ _⟩⟩
  emptyTuple := Or.inl rfl
  depth := rfl
  filled := (Advances.refl hs).filled
  unlocked := by
    intro i after key slot inner ha hl
    rw [Array.getElem?_push] at ha
    split at ha
    · obtain rfl := Option.some.inj ha
      rw [he] at hl; cases hl
    · exact ⟨after, ha, hl⟩
  valid := by
    refine hs.step (t := { s with scopes := s.scopes.push scope }) (Arena.Extends.refl _)
      (by simp) ?_ ?_ ?_
    · exact fun id type h => Or.inl h
    · intro i found h
      rw [Array.getElem?_push] at h
      split at h
      · next hi =>
        obtain rfl := Option.some.inj h
        refine Or.inr ⟨?_, ?_, ?_, ?_⟩
        · intro id hid
          rw [hparent] at hid; obtain rfl := Option.some.inj hid
          rwa [hi]
        · intro key entry hm; rw [he] at hm; cases hm
        · intro key template hm; rw [he] at hm; cases hm
        · intro key hm; rw [he] at hm; cases hm
      · exact Or.inl h
    · exact fun id h => Or.inl h

/-- A new namespace inside one that exists. -/
theorem sound_openLocals (hs : s.Valid) {parent : ScopeId} (hp : parent.index < s.scopes.size)
    (bindings : Bindings) (locals : Option (Assoc Definition)) :
    s.Sound (openLocals parent bindings locals) fun nested t =>
      ∀ id, nested = some id → id.index < t.scopes.size := by
  cases locals with
  | none => exact Sound.pure hs fun id h => nomatch h
  | some definitions =>
    refine Sound.map (p := fun id t => id.index < t.scopes.size)
      ⟨advances_openScope hs rfl hp rfl, by simp⟩ ?_
    intro id t _ hid found h
    obtain rfl := Option.some.inj h
    exact hid

/-- An entry under a new key goes behind the others. -/
theorem insert_eq {home : ScopeId} {key : String} (hnew : key ∉ (s.scope home).entries.keys)
    (entry : Entry) :
    ∃ scopes, insert home key entry s =
      .ok () { s with scopes, journal := (home, key) :: s.journal } ∧
      scopes.size = s.scopes.size ∧ ∀ (i : ℕ) before, s.scopes[i]? = some before →
        scopes[i]? = some (if home.index = i then
          { before with entries := before.entries ++ [(key, entry)] } else before) := by
  refine ⟨_, rfl, Array.size_modify, fun i before hb => ?_⟩
  refine (getElem?_changeScope s home _ i).trans ?_
  by_cases hi : home.index = i
  · subst hi
    have hput := Assoc.put_eq_append hnew entry
    rw [scope_eq hb] at hput
    rw [if_pos rfl, if_pos rfl, hb, Option.map_some, hput]
  · rw [if_neg hi, if_neg hi, hb]

end Session

end Wireform
