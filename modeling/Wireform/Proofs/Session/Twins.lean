import Wireform.Proofs.Expression.Avoidance
import Wireform.Proofs.Session.Persistence

/-!
# Sessions that differ in some bindings

Two sessions are twins if they are the same but for the bindings that some of their namespaces have
in force. Where these differ, they agree beyond some given bindings `b`, and the definitions there
avoid all parameters that `b` replaces, but for those that belong to the templates around. All other
namespaces are marked, and so are the slots that can be come by from them: nothing that is found
from a marked place leads to one that differs.

* `Twins`: the relation, and the marks.
* `Tandem`: two computations that fail both or succeed both, with one result and with twins.
* `Tandem.bind`: one step after another.
-/

namespace Wireform

/-- None of the parameters that the bindings replace occurs in the body of a template, beside its
own parameters and those of the templates around it. -/
def Template.avoids (b : Bindings) (own : List String) : Template → Bool
  | .user parameters body => definitionAvoids b (parameters ++ own) body
  | .builtin _ => true

namespace Session

/-- Some namespaces and slots, and the parameters that belong to the templates around each
namespace. -/
structure Marks where
  scopes : ScopeId → Prop
  types : TypeId → Prop
  own : ScopeId → List String

/-- A marked namespace is the same in both sessions and leads to what is marked. -/
structure Shared (m : Marks) (s t : Session) (q : ScopeId) : Prop where
  lt : q.index < s.scopes.size
  bindings : (t.scope q).bindings = (s.scope q).bindings
  parent : ∀ p, (s.scope q).parent = some p → m.scopes p
  compiled : ∀ key id, (key, Entry.compiled id) ∈ (s.scope q).entries → m.types id
  locked : ∀ key id inner, (key, Entry.locked id inner) ∈ (s.scope q).entries → m.types id

/-- The bindings of any other namespace agree beyond `b`, and it does not ask for what `b`
replaces. -/
structure Parted (b : Bindings) (own : List String) (s t : Session) (q : ScopeId) : Prop where
  bindings : TypeRef.Beyond b own (s.scope q).bindings (t.scope q).bindings
  definitions : definitionsAvoid b own (s.scope q).definitions = true
  templates : ∀ key template, (key, Entry.deferred template) ∈ (s.scope q).entries →
    template.avoids b own = true

/-- A type goes well into a marked slot: its namespace is marked, and the type that it is a synonym
of. -/
structure Marks.Fits (m : Marks) (type : CompiledType) : Prop where
  scope : ∀ c, type.scope = some c → m.scopes c
  synonym : ∀ target, type.layout = .synonym target → m.types target

/-- Two sessions that are the same but for the bindings of namespaces without a mark. -/
structure Twins (b : Bindings) (m : Marks) (s t : Session) : Prop where
  arena : t.arena = s.arena
  options : t.options = s.options
  depth : t.depth = s.depth
  emptyTuple : t.emptyTuple = s.emptyTuple
  size : t.scopes.size = s.scopes.size
  scope : ∀ q, t.scope q = { s.scope q with bindings := (t.scope q).bindings }
  slots : ∀ q key id inner, (key, Entry.locked id inner) ∈ (s.scope q).entries →
    id.index < s.arena.size
  shared : ∀ q, m.scopes q → Shared m s t q
  parted : ∀ q, ¬m.scopes q → Parted b (m.own q) s t q
  types : ∀ id, m.types id → id.index < s.arena.size
  filled : ∀ id type, m.types id → s.arena.get? id = some type → m.Fits type
  inner : ∀ q key id c, m.types id →
    (key, Entry.locked id (some c)) ∈ (s.scope q).entries → m.scopes c

/-- What is there keeps its mark or stays without one; what comes may get one. -/
structure Later (m : Marks) (s : Session) (m' : Marks) (s' : Session) : Prop where
  scopes_le : s.scopes.size ≤ s'.scopes.size
  slots_le : s.arena.size ≤ s'.arena.size
  scopes : ∀ q : ScopeId, q.index < s.scopes.size → (m'.scopes q ↔ m.scopes q)
  types : ∀ id : TypeId, id.index < s.arena.size → (m'.types id ↔ m.types id)
  own : ∀ q : ScopeId, q.index < s.scopes.size → m'.own q = m.own q

variable {b : Bindings} {m m' m'' : Marks} {s s' s'' t t' : Session} {α β : Type}

/-- A marked namespace that does not change stays the same in both sessions. -/
theorem Shared.kept {q : ScopeId} (h : Shared m s t q) (hle : s.scopes.size ≤ s'.scopes.size)
    (hs : s'.scope q = s.scope q) (ht : t'.scope q = t.scope q)
    (hscopes : ∀ p, m.scopes p → m'.scopes p) (htypes : ∀ id, m.types id → m'.types id) :
    Shared m' s' t' q := by
  constructor
  · exact h.lt.trans_le hle
  · rw [hs, ht, h.bindings]
  · rw [hs]
    exact fun p hp => hscopes p (h.parent p hp)
  · rw [hs]
    exact fun key id hentry => htypes id (h.compiled key id hentry)
  · rw [hs]
    exact fun key id inner hentry => htypes id (h.locked key id inner hentry)

theorem Parted.kept {own : List String} {q : ScopeId} (h : Parted b own s t q)
    (hs : s'.scope q = s.scope q) (ht : t'.scope q = t.scope q) : Parted b own s' t' q := by
  constructor
  · rw [hs, ht]
    exact h.bindings
  · rw [hs]
    exact h.definitions
  · rw [hs]
    exact h.templates

namespace Later

theorem refl (m : Marks) (s : Session) : Later m s m s :=
  ⟨Nat.le_refl _, Nat.le_refl _, fun _ _ => Iff.rfl, fun _ _ => Iff.rfl, fun _ _ => rfl⟩

theorem trans (h : Later m s m' s') (h' : Later m' s' m'' s'') : Later m s m'' s'' where
  scopes_le := h.scopes_le.trans h'.scopes_le
  slots_le := h.slots_le.trans h'.slots_le
  scopes := fun q hq => (h'.scopes q (hq.trans_le h.scopes_le)).trans (h.scopes q hq)
  types := fun id hid => (h'.types id (hid.trans_le h.slots_le)).trans (h.types id hid)
  own := fun q hq => (h'.own q (hq.trans_le h.scopes_le)).trans (h.own q hq)

theorem markedScope (h : Later m s m' s') (htwins : Twins b m s t) {q : ScopeId} (hq : m.scopes q) :
    m'.scopes q := (h.scopes q (htwins.shared q hq).lt).2 hq

theorem markedType (h : Later m s m' s') (htwins : Twins b m s t) {id : TypeId} (hid : m.types id) :
    m'.types id := (h.types id (htwins.types id hid)).2 hid

end Later

/-! ### Two computations -/

/-- Both computations fail, or both succeed with the same result and with twins, marked as they
were. -/
def Tandem (b : Bindings) (m : Marks) (s t : Session) (x y : Compile α)
    (post : Marks → α → Prop) : Prop :=
  match x s, y t with
  | .ok a s', .ok a' t' => a' = a ∧ ∃ m', Later m s m' s' ∧ Twins b m' s' t' ∧ post m' a
  | .error _ _, .error _ _ => True
  | _, _ => False

namespace Tandem

variable {x y : Compile α} {p p' : Marks → α → Prop}

theorem ok {a : α} (hx : x s = .ok a s') (hy : y t = .ok a t') (hlater : Later m s m' s')
    (htwins : Twins b m' s' t') (h : p m' a) : Tandem b m s t x y p := by
  rw [Tandem, hx, hy]
  exact ⟨rfl, m', hlater, htwins, h⟩

theorem mono (h : Tandem b m s t x y p) (hp : ∀ m' a, p m' a → p' m' a) :
    Tandem b m s t x y p' := by
  unfold Tandem at *
  split at h
  · obtain ⟨rfl, m', hlater, htwins, ha⟩ := h
    exact ⟨rfl, m', hlater, htwins, hp _ _ ha⟩
  · trivial
  · exact h.elim

/-- **One step after another.** -/
theorem bind {f g : α → Compile β} {p' : Marks → β → Prop} (h : Tandem b m s t x y p)
    (hf : ∀ m' a s' t', Later m s m' s' → Twins b m' s' t' → p m' a →
      Tandem b m' s' t' (f a) (g a) p') :
    Tandem b m s t (x >>= f) (y >>= g) p' := by
  unfold Tandem at h
  split at h
  · next a s' a' t' hx hy =>
    obtain ⟨rfl, m', hlater, htwins, ha⟩ := h
    have hrest := hf m' _ s' t' hlater htwins ha
    unfold Tandem at hrest ⊢
    rw [bind_of_ok hx, bind_of_ok hy]
    split at hrest
    · obtain ⟨rfl, m'', hlater', htwins', hb⟩ := hrest
      exact ⟨rfl, m'', hlater.trans hlater', htwins', hb⟩
    · trivial
    · exact hrest.elim
  · next hx hy =>
    unfold Tandem
    rw [bind_of_error hx, bind_of_error hy]
    trivial
  · exact h.elim

/-- One step that is known on both sides, and the rest. -/
theorem bind_ok {f g : α → Compile β} {p' : Marks → β → Prop} {a : α} (hx : x s = .ok a s')
    (hy : y t = .ok a t') (hlater : Later m s m' s') (hrest : Tandem b m' s' t' (f a) (g a) p') :
    Tandem b m s t (x >>= f) (y >>= g) p' := by
  unfold Tandem at *
  rw [bind_of_ok hx, bind_of_ok hy]
  split at hrest
  · obtain ⟨rfl, m'', hlater', htwins, hb⟩ := hrest
    exact ⟨rfl, m'', hlater.trans hlater', htwins, hb⟩
  · trivial
  · exact hrest.elim

theorem pure {a : α} (htwins : Twins b m s t) (h : p m a) :
    Tandem b m s t (Pure.pure a) (Pure.pure a) p :=
  ok rfl rfl (.refl m s) htwins h

theorem fail (e e' : CompileError) : Tandem b m s t (.fail e : Compile α) (.fail e') p := trivial

theorem get_bind {f g : Session → Compile β} {p' : Marks → β → Prop}
    (h : Tandem b m s t (f s) (g t) p') : Tandem b m s t (get >>= f) (get >>= g) p' := h

theorem orFail {x : Except CompileError α} (htwins : Twins b m s t) (h : ∀ a, x = .ok a → p m a) :
    Tandem b m s t (Session.orFail x) (Session.orFail x) p := by
  cases x with
  | ok a => exact pure htwins (h a rfl)
  | error e => exact fail e e

end Tandem

/-! ### Looking things up -/

/-- A namespace that knows a name is there. -/
theorem lt_of_knows {q : ScopeId} {name : String} (hknows : s.knows q name = true) :
    q.index < s.scopes.size := by
  refine Nat.lt_of_not_le fun hge => ?_
  rw [Session.knows, scope_of_size_le hge] at hknows
  cases hknows

theorem lt_of_lookup? {q home : ScopeId} {name : String} {localOnly : Bool}
    (hfound : s.lookup? q name localOnly = some home) : home.index < s.scopes.size := by
  have hwithin : ∀ count q, s.lookupWithin? name count q = some home →
      home.index < s.scopes.size := by
    intro count
    induction count with
    | zero => exact fun _ hnone => nomatch hnone
    | succ count ih =>
      intro q hfound
      rw [lookupWithin?] at hfound
      split at hfound
      · next hknows =>
        obtain rfl := Option.some.inj hfound
        exact lt_of_knows hknows
      · split at hfound
        · exact ih _ hfound
        · cases hfound
  exact hwithin _ q hfound

/-- The namespace of a slot that is being compiled, as one entry has it. -/
def innerOf? (id : TypeId) : Entry → Option ScopeId
  | .locked slot inner => if slot = id then inner else none
  | _ => none

namespace Twins

variable (h : Twins b m s t)

include h

theorem parent (q : ScopeId) : (t.scope q).parent = (s.scope q).parent := by rw [h.scope q]

theorem definitions (q : ScopeId) : (t.scope q).definitions = (s.scope q).definitions :=
  by rw [h.scope q]

theorem entries (q : ScopeId) : (t.scope q).entries = (s.scope q).entries := by rw [h.scope q]

theorem knows (q : ScopeId) (name : String) : t.knows q name = s.knows q name := by
  rw [Session.knows, Session.knows, h.entries, h.definitions]

theorem lookup? (q : ScopeId) (name : String) (localOnly : Bool) :
    t.lookup? q name localOnly = s.lookup? q name localOnly := by
  have hwithin : ∀ count q, t.lookupWithin? name count q = s.lookupWithin? name count q := by
    intro count
    induction count with
    | zero => exact fun _ => rfl
    | succ count ih =>
      intro q
      rw [lookupWithin?, lookupWithin?, h.knows, h.parent]
      split
      · rfl
      · split
        · exact ih _
        · rfl
  rw [Session.lookup?, Session.lookup?, h.size, hwithin]

/-- What is found from a marked namespace is marked. -/
theorem lookup?_marked {q home : ScopeId} {name : String} {localOnly : Bool} (hq : m.scopes q)
    (hfound : s.lookup? q name localOnly = some home) : m.scopes home := by
  have hwithin : ∀ count q, m.scopes q → s.lookupWithin? name count q = some home →
      m.scopes home := by
    intro count
    induction count with
    | zero => exact fun _ _ hnone => nomatch hnone
    | succ count ih =>
      intro q hq hfound
      rw [lookupWithin?] at hfound
      split at hfound
      · obtain rfl := Option.some.inj hfound
        exact hq
      · split at hfound
        · next parent hparent => exact ih parent ((h.shared q hq).parent parent hparent) hfound
        · cases hfound
  exact hwithin _ q hq hfound

theorem lockedScope? (id : TypeId) : t.lockedScope? id = s.lockedScope? id := by
  have hentries : t.scopes.toList.map Scope.entries = s.scopes.toList.map Scope.entries := by
    refine List.ext_getElem (by simp [h.size]) fun i hi hi' => ?_
    have hscope := h.entries ⟨i⟩
    simp only [List.length_map, Array.length_toList] at hi hi'
    simpa [Session.scope, hi, hi'] using hscope
  have hwalk : ∀ u : Session, u.lockedScope? id =
      (u.scopes.toList.map Scope.entries).findSome? fun entries =>
      entries.findSome? fun entry => innerOf? id entry.2 := by
    intro u
    rw [List.findSome?_map]
    rfl
  rw [hwalk, hwalk, hentries]

/-- The namespace of a marked type is marked, also while it is being compiled. -/
theorem lockedScope?_marked {id : TypeId} {c : ScopeId} (hid : m.types id)
    (hfound : s.lockedScope? id = some c) : m.scopes c := by
  unfold Session.lockedScope? at hfound
  obtain ⟨scope, hscope, hfound⟩ := List.exists_of_findSome?_eq_some hfound
  obtain ⟨⟨key, entry⟩, hentry, hinner⟩ := List.exists_of_findSome?_eq_some hfound
  obtain ⟨i, hi, rfl⟩ := List.getElem_of_mem hscope
  cases entry with
  | locked slot inner =>
    dsimp only at hinner
    split at hinner
    · next heq =>
      obtain rfl := heq
      obtain rfl := hinner
      refine h.inner ⟨i⟩ key slot c hid ?_
      have hget : s.scope ⟨i⟩ = s.scopes.toList[i] := by
        refine scope_eq ?_
        rw [Array.getElem?_eq_getElem (by simpa using hi)]
        rfl
      rw [hget]
      exact hentry
    · cases hinner
  | compiled | deferred => cases hinner

theorem nestedScope? (id : TypeId) : t.nestedScope? id = s.nestedScope? id := by
  have hwithin : ∀ steps id, t.nestedScopeWithin? steps id = s.nestedScopeWithin? steps id := by
    intro steps
    induction steps with
    | zero => exact fun _ => rfl
    | succ steps ih =>
      intro id
      rw [nestedScopeWithin?, nestedScopeWithin?, h.arena, h.lockedScope?]
      cases s.arena.get? id with
      | none => rfl
      | some type =>
        dsimp only
        split
        · rfl
        · exact ih _
        · rfl
  rw [Session.nestedScope?, Session.nestedScope?, h.arena, hwithin]

theorem nestedScope?_marked {id : TypeId} {c : ScopeId} (hid : m.types id)
    (hfound : s.nestedScope? id = some c) : m.scopes c := by
  have hwithin : ∀ steps id, m.types id → s.nestedScopeWithin? steps id = some c → m.scopes c := by
    intro steps
    induction steps with
    | zero => exact fun _ _ hnone => nomatch hnone
    | succ steps ih =>
      intro id hid hfound
      rw [nestedScopeWithin?] at hfound
      cases hget : s.arena.get? id with
      | none =>
        rw [hget] at hfound
        exact h.lockedScope?_marked hid hfound
      | some type =>
        have hfits := h.filled id type hid hget
        rw [hget] at hfound
        dsimp only at hfound
        split at hfound
        · next scope hscope =>
          obtain rfl := Option.some.inj hfound
          exact hfits.scope _ hscope
        · next target _ htarget => exact ih target (hfits.synonym target htarget) hfound
        · cases hfound
  exact hwithin _ id hid hfound

end Twins

/-! ### Single operations -/

namespace Marks

/-- One more slot, which may get a mark. -/
def withType (m : Marks) (marked : Bool) (id : TypeId) : Marks :=
  { m with types := fun other => m.types other ∨ marked = true ∧ other = id }

/-- One more namespace, which may get a mark, in templates with these parameters. -/
def withScope (m : Marks) (marked : Bool) (own : List String) (q : ScopeId) : Marks where
  scopes other := m.scopes other ∨ marked = true ∧ other = q
  types := m.types
  own := Function.update m.own q own

theorem Fits.withType {type : CompiledType} (h : m.Fits type) (marked : Bool) (id : TypeId) :
    (m.withType marked id).Fits type :=
  ⟨h.scope, fun target htarget => Or.inl (h.synonym target htarget)⟩

theorem Fits.withScope {type : CompiledType} (h : m.Fits type) (marked : Bool)
    (own : List String) (q : ScopeId) :
    (m.withScope marked own q).Fits type := ⟨fun c hc => Or.inl (h.scope c hc), h.synonym⟩

end Marks

/-- What is neither a slot nor a namespace may change on both sides. -/
theorem Twins.aside (h : Twins b m s t) {depth depth' : Nat}
    {emptyTuple emptyTuple' : Option TypeId} (hdepth : depth' = depth)
    (hempty : emptyTuple' = emptyTuple) (journal journal' : List (ScopeId × String)) :
    Later m s m { s with depth, emptyTuple, journal } ∧
      Twins b m { s with depth, emptyTuple, journal }
        { t with depth := depth', emptyTuple := emptyTuple', journal := journal' } := by
  refine ⟨⟨Nat.le_refl _, Nat.le_refl _, fun _ _ => Iff.rfl, fun _ _ => Iff.rfl, fun _ _ => rfl⟩,
    ?_⟩
  exact {
    arena := h.arena
    options := h.options
    depth := hdepth
    emptyTuple := hempty
    size := h.size
    scope := h.scope
    slots := h.slots
    shared :=
      fun q hq => (h.shared q hq).kept (Nat.le_refl _) rfl rfl (fun _ hp => hp) fun _ hid => hid
    parted := fun q hq => (h.parted q hq).kept rfl rfl
    types := h.types
    filled := h.filled
    inner := h.inner }

/-- The same slot is added on both sides; it may get a mark if its type fits. -/
theorem Twins.slot (h : Twins b m s t) {arena : Arena} {content : Option CompiledType}
    (hsize : arena.size = s.arena.size + 1)
    (hget : ∀ id : TypeId, arena.get? id = if id.index = s.arena.size then content
      else s.arena.get? id)
    {marked : Bool} (hfits : marked = true → ∀ type, content = some type → m.Fits type) :
    Later m s (m.withType marked ⟨s.arena.size⟩) { s with arena } ∧
      Twins b (m.withType marked ⟨s.arena.size⟩) { s with arena } { t with arena } := by
  have hle : s.arena.size ≤ arena.size := hsize ▸ Nat.le_succ _
  have hold : ∀ id : TypeId, id.index < s.arena.size →
      ((m.withType marked ⟨s.arena.size⟩).types id ↔ m.types id) := by
    intro id hid
    refine ⟨fun hor => hor.resolve_right fun ⟨_, heq⟩ => ?_, Or.inl⟩
    rw [heq] at hid
    exact Nat.lt_irrefl _ hid
  refine ⟨⟨Nat.le_refl _, hle, fun _ _ => Iff.rfl, hold, fun _ _ => rfl⟩, ?_⟩
  exact {
    arena := rfl
    options := h.options
    depth := h.depth
    emptyTuple := h.emptyTuple
    size := h.size
    scope := h.scope
    slots := fun q key id inner hentry => (h.slots q key id inner hentry).trans_le hle
    shared :=
      fun q hq => (h.shared q hq).kept (Nat.le_refl _) rfl rfl (fun _ hp => hp)
        fun _ hid => Or.inl hid
    parted := fun q hq => (h.parted q hq).kept rfl rfl
    types := by
      rintro id (hid | ⟨-, rfl⟩)
      · exact (h.types id hid).trans_le hle
      · exact hsize ▸ Nat.lt_succ_self _
    filled := by
      intro id type hid htype
      have htype : arena.get? id = some type := htype
      rw [hget] at htype
      rcases hid with hid | ⟨hmarked, rfl⟩
      · rw [if_neg (Nat.ne_of_lt (h.types id hid))] at htype
        exact (h.filled id type hid htype).withType marked _
      · rw [if_pos rfl] at htype
        exact (hfits hmarked type htype).withType marked _
    inner := fun q key id c hid hentry =>
      h.inner q key id c ((hold id (h.slots q key id _ hentry)).1 hid) hentry }

/-- A type that may go into a marked slot goes into a slot on both sides. -/
theorem Twins.fill (h : Twins b m s t) {id : TypeId} {type : CompiledType}
    (hfits : m.types id → m.Fits type) :
    Later m s m { s with arena := s.arena.fill id type } ∧
      Twins b m { s with arena := s.arena.fill id type }
        { t with arena := t.arena.fill id type } := by
  have hle : s.arena.size ≤ (s.arena.fill id type).size := (s.arena.size_fill id type).ge
  refine ⟨⟨Nat.le_refl _, hle, fun _ _ => Iff.rfl, fun _ _ => Iff.rfl, fun _ _ => rfl⟩, ?_⟩
  exact {
    arena := by
      change t.arena.fill id type = s.arena.fill id type
      rw [h.arena]
    options := h.options
    depth := h.depth
    emptyTuple := h.emptyTuple
    size := h.size
    scope := h.scope
    slots := fun q key slot inner hentry => (h.slots q key slot inner hentry).trans_le hle
    shared :=
      fun q hq => (h.shared q hq).kept (Nat.le_refl _) rfl rfl (fun _ hp => hp) fun _ hid => hid
    parted := fun q hq => (h.parted q hq).kept rfl rfl
    types := fun other hother => (h.types other hother).trans_le hle
    filled := by
      intro other found hother hfound
      have hfound : (s.arena.fill id type).get? other = some found := hfound
      rw [Arena.get?_fill] at hfound
      split at hfound
      · next heq =>
        obtain rfl := Option.some.inj hfound
        obtain rfl : id = other := congrArg TypeId.mk heq.1
        exact hfits hother
      · exact h.filled other found hother hfound
    inner := h.inner }

/-- The same namespace is added on both sides, but for its bindings. It gets a mark if it is inside
a marked one and its bindings are the same, too. -/
theorem Twins.openScope (h : Twins b m s t) {parent : ScopeId} {definitions : Assoc Definition}
    {x y : Bindings} {own : List String} {marked : Bool}
    (hmarked : marked = true → m.scopes parent ∧ y = x)
    (hparted : marked = false → TypeRef.Beyond b own x y ∧
      definitionsAvoid b own definitions = true) :
    Later m s (m.withScope marked own ⟨s.scopes.size⟩)
        { s with scopes := s.scopes.push ⟨some parent, definitions, [], x⟩ } ∧
      Twins b (m.withScope marked own ⟨s.scopes.size⟩)
        { s with scopes := s.scopes.push ⟨some parent, definitions, [], x⟩ }
        { t with scopes := t.scopes.push ⟨some parent, definitions, [], y⟩ } := by
  have hold : ∀ q : ScopeId, q.index < s.scopes.size →
      ((m.withScope marked own ⟨s.scopes.size⟩).scopes q ↔ m.scopes q) := by
    intro q hq
    refine ⟨fun hor => hor.resolve_right fun hnew => ?_, Or.inl⟩
    rw [hnew.2] at hq
    exact Nat.lt_irrefl _ hq
  have hown : ∀ q : ScopeId, q.index ≠ s.scopes.size →
      (m.withScope marked own ⟨s.scopes.size⟩).own q = m.own q :=
    fun q hq => Function.update_of_ne (fun heq => hq (congrArg ScopeId.index heq)) _ _
  refine ⟨⟨by simp, Nat.le_refl _, hold, fun _ _ => Iff.rfl, fun q hq => hown q (Nat.ne_of_lt hq)⟩,
    ?_⟩
  exact {
    arena := h.arena
    options := h.options
    depth := h.depth
    emptyTuple := h.emptyTuple
    size := by simp [h.size]
    scope := by
      intro q
      rw [scope_push, scope_push, h.size]
      split
      · rfl
      · exact h.scope q
    slots := by
      intro q key id inner hentry
      rw [scope_push] at hentry
      split at hentry
      · cases hentry
      · exact h.slots q key id inner hentry
    shared := by
      rintro q (hq | ⟨hmark, rfl⟩)
      · have hshared := h.shared q hq
        have hne : q.index ≠ s.scopes.size := Nat.ne_of_lt hshared.lt
        refine hshared.kept (by simp) ?_ ?_ (fun _ hp => Or.inl hp) fun _ hid => hid
        · rw [scope_push, if_neg hne]
        · rw [scope_push, h.size, if_neg hne]
      · obtain ⟨hparent, rfl⟩ := hmarked hmark
        constructor
        · simp
        · rw [scope_push, scope_push, h.size, if_pos rfl, if_pos rfl]
        · rw [scope_push, if_pos rfl]
          intro p hp
          exact Or.inl (Option.some.inj hp ▸ hparent)
        · rw [scope_push, if_pos rfl]
          exact fun _ _ hentry => absurd hentry List.not_mem_nil
        · rw [scope_push, if_pos rfl]
          exact fun _ _ _ hentry => absurd hentry List.not_mem_nil
    parted := by
      intro q hq
      by_cases heq : q.index = s.scopes.size
      · have hunmarked : marked = false :=
          Bool.eq_false_iff.2 fun hmark => hq (Or.inr ⟨hmark, congrArg ScopeId.mk heq⟩)
        obtain ⟨hbindings, hdefinitions⟩ := hparted hunmarked
        obtain rfl : q = ⟨s.scopes.size⟩ := congrArg ScopeId.mk heq
        rw [show (m.withScope marked own ⟨s.scopes.size⟩).own ⟨s.scopes.size⟩ = own
          from Function.update_self _ _ _]
        constructor
        · rw [scope_push, scope_push, h.size, if_pos heq, if_pos heq]
          exact hbindings
        · rw [scope_push, if_pos heq]
          exact hdefinitions
        · rw [scope_push, if_pos heq]
          exact fun _ _ hentry => absurd hentry List.not_mem_nil
      · rw [hown q heq]
        refine (h.parted q fun hmark => hq (Or.inl hmark)).kept ?_ ?_
        · rw [scope_push, if_neg heq]
        · rw [scope_push, h.size, if_neg heq]
    types := h.types
    filled := fun id type hid htype => (h.filled id type hid htype).withScope marked own _
    inner := by
      intro q key id c hid hentry
      rw [scope_push] at hentry
      split at hentry
      · cases hentry
      · exact Or.inl (h.inner q key id c hid hentry) }

/-- An entry leads from a namespace only to where it may lead. -/
structure Marks.Leads (m : Marks) (b : Bindings) (s : Session) (home : ScopeId)
    (entry : Entry) : Prop where
  slot : ∀ id inner, entry = .locked id inner → id.index < s.arena.size
  compiled : m.scopes home → ∀ id, entry = .compiled id → m.types id
  locked : m.scopes home → ∀ id inner, entry = .locked id inner → m.types id
  inner : ∀ id c, entry = .locked id (some c) → m.types id → m.scopes c
  template : ¬m.scopes home → ∀ template, entry = .deferred template →
    template.avoids b (m.own home) = true

/-- The same entry is made on both sides. -/
theorem Twins.enter (h : Twins b m s t) {home : ScopeId} {entry : Entry}
    (hentry : m.Leads b s home entry) (key : String) :
    Later m s m
      (s.changeScope home fun scope => { scope with entries := scope.entries.put key entry }) ∧
      Twins b m
        (s.changeScope home fun scope => { scope with entries := scope.entries.put key entry })
        (t.changeScope home fun scope =>
          { scope with entries := scope.entries.put key entry }) := by
  have hmem : ∀ {q : ScopeId} {name : String} {found : Entry},
      (name, found) ∈ ((s.changeScope home fun scope =>
        { scope with entries := scope.entries.put key entry }).scope q).entries →
      (name, found) ∈ (s.scope q).entries ∨ home = q ∧ found = entry := by
    intro q name found hfound
    rw [scope_changeScope] at hfound
    split at hfound
    · next hq => exact (Assoc.mem_put hfound).imp_right fun hnew => ⟨hq.1, hnew.2⟩
    · exact Or.inl hfound
  refine ⟨⟨(size_changeScope s home _).ge, Nat.le_refl _, fun _ _ => Iff.rfl, fun _ _ => Iff.rfl,
    fun _ _ => rfl⟩, ?_⟩
  have hbindings : ∀ (u : Session) (q : ScopeId), ((u.changeScope home fun scope =>
      { scope with entries := scope.entries.put key entry }).scope q).bindings =
        (u.scope q).bindings := by
    intro u q
    rw [scope_changeScope]
    split <;> rfl
  exact {
    arena := h.arena
    options := h.options
    depth := h.depth
    emptyTuple := h.emptyTuple
    size := by rw [size_changeScope, size_changeScope, h.size]
    scope := by
      intro q
      rw [scope_changeScope, scope_changeScope, h.size]
      split
      · rw [h.scope q]
      · exact h.scope q
    slots := by
      intro q name id inner hfound
      rcases hmem hfound with hfound | ⟨-, heq⟩
      · exact h.slots q name id inner hfound
      · exact hentry.slot id inner heq.symm
    shared := by
      intro q hq
      have hshared := h.shared q hq
      constructor
      · exact hshared.lt.trans_le (size_changeScope s home _).ge
      · rw [hbindings, hbindings, hshared.bindings]
      · rw [scope_changeScope]
        split <;> exact hshared.parent
      · intro name id hfound
        rcases hmem hfound with hfound | ⟨rfl, heq⟩
        · exact hshared.compiled name id hfound
        · exact hentry.compiled hq id heq.symm
      · intro name id inner hfound
        rcases hmem hfound with hfound | ⟨rfl, heq⟩
        · exact hshared.locked name id inner hfound
        · exact hentry.locked hq id inner heq.symm
    parted := by
      intro q hq
      have hparted := h.parted q hq
      constructor
      · rw [hbindings, hbindings]
        exact hparted.bindings
      · rw [scope_changeScope]
        split <;> exact hparted.definitions
      · intro name template hfound
        rcases hmem hfound with hfound | ⟨rfl, heq⟩
        · exact hparted.templates name template hfound
        · exact hentry.template hq template heq.symm
    types := h.types
    filled := h.filled
    inner := by
      intro q name id c hid hfound
      rcases hmem hfound with hfound | ⟨-, heq⟩
      · exact h.inner q name id c hid hfound
      · exact hentry.inner id c heq.symm hid }

end Session

end Wireform
