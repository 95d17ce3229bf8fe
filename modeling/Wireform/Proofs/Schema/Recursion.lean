import Wireform.Proofs.Schema.Permanence

/-!
# Types that contain themselves are found, and nothing else is

A call checks only the slots that it has made. A slot that was there before has only parts that were
there before, so a cycle that is not found among the new slots would be one of the old ones, and
there are none.

* `Arises`: the sessions between the calls of a compilation, and of all resolutions after it.
* `Exact`: a call fails on a type that contains itself exactly if its step has made one.
* `recursiveType_exact`: this holds in all such sessions, which have no cycles.
-/

namespace Wireform

open Relation

namespace Arena

variable {arena : Arena} {start : ℕ}

/-- A slot lies on a cycle of mandatory parts among the slots from a given one on. Each slot of a
cycle is a part of the next one. -/
def OnCycle (arena : Arena) (start : ℕ) (id : TypeId) : Prop :=
  TransGen (fun part around => arena.PartOf part around ∧ start ≤ part.index) id id

theorem onCycle_iff (hparts : ∀ part id, arena.PartOf part id → part.index < arena.size)
    {id : TypeId} :
    arena.OnCycle start id ↔ TransGen (arena.Inside start) id id := by
  have hrel : (fun part around => arena.PartOf part around ∧ start ≤ part.index) =
      arena.Inside start := by
    funext part around
    refine propext ⟨fun h => inside_iff.2 ⟨h.1, h.2, hparts part around h.1⟩, fun h => ?_⟩
    exact ⟨(inside_iff.1 h).1, (inside_iff.1 h).2.1⟩
  rw [OnCycle, hrel]

/-- The search stops at a slot of a cycle. -/
theorem onCycle_of_cycle? (hparts : ∀ part id, arena.PartOf part id → part.index < arena.size)
    {id : TypeId} (h : arena.cycle? start = some id) : arena.OnCycle start id := by
  have hrun := searches_visitAll arena start
  unfold cycle? at h
  split at h
  · cases h
  · next found t ht =>
    obtain rfl := Option.some.inj h
    exact (onCycle_iff hparts).2 (hrun.of_error ht)

/-- The search does not pass a cycle. -/
theorem not_onCycle_of_cycle? (hparts : ∀ part id, arena.PartOf part id → part.index < arena.size)
    (h : arena.cycle? start = none) (id : TypeId) : ¬arena.OnCycle start id := by
  intro hcycle
  obtain ⟨around, ⟨hpart, hstart⟩, -⟩ := TransGen.head'_iff.1 hcycle
  exact not_transGen_of_acc (acc_of_cycle?_eq_none h hstart (hparts id around hpart))
    ((onCycle_iff hparts).1 hcycle)

/-- What lies on a cycle contains itself. -/
theorem OnCycle.inside {id : TypeId} (h : arena.OnCycle start id) : TransGen arena.PartOf id id :=
  TransGen.mono (fun _ _ hpart => hpart.1) _ _ h

/-- A slot of a cycle holds a type, by whose text it is named. -/
theorem OnCycle.slotName_eq {id : TypeId} (h : arena.OnCycle start id) :
    ∃ type, arena.get? id = some type ∧ arena.slotName id = type.ident := by
  obtain ⟨part, -, ⟨type, hid, -⟩, -⟩ := TransGen.tail'_iff.1 h
  exact ⟨type, hid, by rw [slotName, hid]⟩

end Arena

namespace Session

variable {s t u : Session} {α : Type} {step : Compile α}

theorem Valid.part_lt (h : s.Valid) {part id : TypeId} (hpart : s.arena.PartOf part id) :
    part.index < s.arena.size := by
  obtain ⟨type, hid, hmem⟩ := hpart
  exact (h.types id type hid).builds.references part (Arena.mem_references_of_mandatory hmem)

/-- A call whose step ends fails on a type that contains itself exactly if the new slots have a
cycle. Then it names a slot of a cycle and leaves the session as it was; otherwise it succeeds. -/
structure Exact (s : Session) (step : Compile α) : Prop where
  fails : ∀ a t, step s = .ok a t →
    ((∃ name u, atomically step s = .error (.failure (.recursiveType name)) u) ↔
      ∃ id, t.arena.OnCycle s.arena.size id)
  named : ∀ a t name u, step s = .ok a t →
    atomically step s = .error (.failure (.recursiveType name)) u →
    u = s ∧ ∃ id type, t.arena.OnCycle s.arena.size id ∧ t.arena.get? id = some type ∧
    type.ident = name
  passes : ∀ a t, step s = .ok a t → (∀ id, ¬t.arena.OnCycle s.arena.size id) →
    atomically step s = .ok a (t.commit s.checkpoint)

theorem checkContainment_of_none {start : ℕ} (h : t.arena.cycle? start = none) :
    checkContainment start t = .ok () t := by
  unfold checkContainment
  rw [bind_of_ok (x := get) (a := t) (t := t) rfl, h]
  rfl

theorem checkContainment_of_some {start : ℕ} {id : TypeId} (h : t.arena.cycle? start = some id) :
    checkContainment start t = .error (.failure (.recursiveType (t.arena.slotName id))) t := by
  unfold checkContainment
  rw [bind_of_ok (x := get) (a := t) (t := t) rfl, h]
  rfl

/-- What the check makes of a step that ends. -/
theorem atomically_of_step (hs : s.Closed) {post : α → Session → Prop}
    (hstep : s.Sound step post) {a : α} (hrun : step s = .ok a t) :
    (∃ id type, t.arena.OnCycle s.arena.size id ∧ t.arena.get? id = some type ∧
      atomically step s = .error (.failure (.recursiveType type.ident)) s) ∨
    (∀ id, ¬t.arena.OnCycle s.arena.size id) ∧
    atomically step s = .ok a (t.commit s.checkpoint) := by
  have hst : Advances s t := (Ensures.of_ok hstep hrun).1
  have hparts : ∀ part id, t.arena.PartOf part id → part.index < t.arena.size :=
    fun _ _ hpart => hst.valid.part_lt hpart
  have hchecked : checked s.arena.size step s =
      (checkContainment s.arena.size >>= fun _ => pure a) t :=
    bind_of_ok hrun
  cases hcycle : t.arena.cycle? s.arena.size with
  | none =>
    refine Or.inr ⟨Arena.not_onCycle_of_cycle? hparts hcycle, atomically_of_ok ?_⟩
    change checked s.arena.size step s = _
    rw [hchecked, bind_of_ok (checkContainment_of_none hcycle)]
    rfl
  | some id =>
    have honcycle := Arena.onCycle_of_cycle? hparts hcycle
    obtain ⟨type, hid, hname⟩ := honcycle.slotName_eq
    refine Or.inl ⟨id, type, honcycle, hid, ?_⟩
    have hfailed : checked s.checkpoint.slots step s =
        .error (.failure (.recursiveType type.ident)) t := by
      change checked s.arena.size step s = _
      rw [hchecked, bind_of_error (checkContainment_of_some hcycle), hname]
    rw [atomically_of_error hfailed, hs.rollback hst.toGrows]

theorem exact_of_sound (hs : s.Closed) {post : α → Session → Prop} (hstep : s.Sound step post) :
    s.Exact step where
  fails := by
    intro a t hrun
    rcases atomically_of_step hs hstep hrun with ⟨id, type, honcycle, -, hfails⟩ | ⟨hnone, hpasses⟩
    · exact ⟨fun _ => ⟨id, honcycle⟩, fun _ => ⟨_, _, hfails⟩⟩
    · constructor
      · rintro ⟨name, u, hfails⟩
        rw [hpasses] at hfails
        cases hfails
      · rintro ⟨id, honcycle⟩
        exact absurd honcycle (hnone id)
  named := by
    intro a t name u hrun hnamed
    rcases atomically_of_step hs hstep hrun with ⟨id, type, honcycle, hid, hfails⟩ | ⟨-, hpasses⟩
    · rw [hfails] at hnamed
      cases hnamed
      exact ⟨rfl, id, type, honcycle, hid, rfl⟩
    · rw [hpasses] at hnamed
      cases hnamed
  passes := by
    intro a t hrun hnone
    rcases atomically_of_step hs hstep hrun with ⟨id, -, honcycle, -⟩ | ⟨-, hpasses⟩
    · exact absurd honcycle (hnone id)
    · exact hpasses

theorem sound_nameStep (hs : s.Closed) (levels : ℕ) (name : String) :
    s.Sound (nameStep levels name) fun _ _ => True := by
  refine Sound.get_bind ?_
  split
  · exact Sound.fail (by simp)
  · next home hfound =>
    have hhome := hs.toValid.lookup hs.root_lt hfound
    exact Sound.bind (sound_resolveEntry (sound_resolveType levels) hs.toValid hhome name)
      fun _ t hst _ => Sound.pure hst.valid trivial

end Session

namespace Schema

open Session (Exact nameStep)

/-- The sessions between calls: some definitions are made, and then names are compiled and
references resolved, in any order and whether this succeeds or not. -/
inductive Arises (definitions : List (String × Definition)) (options : Options) :
    Session → Prop where
  | defined {s : Session} (h : defineAll (.initial options) definitions = .ok s) :
      Arises definitions options s
  | compileName {s : Session} (h : Arises definitions options s) (name : String) :
      Arises definitions options (outcome (Session.compileName maxLevels name) s).2
  | resolveRef {s : Session} (h : Arises definitions options s) (r : TypeRef) :
      Arises definitions options (outcome (Session.resolveRef maxLevels r) s).2

variable {definitions : List (String × Definition)} {options : Options} {s : Session}

/-- A call leaves a closed session. -/
theorem closed_outcome {α : Type} {step : Compile α} {post : α → Session → Prop} (hs : s.Closed)
    (hstep : s.Sound step post) : (outcome (Session.atomically step) s).2.Closed := by
  have hrun := Session.ensures_atomically hs hstep
  unfold Ensures at hrun
  unfold outcome
  split at hrun
  · next a t ht =>
    rw [ht]
    exact hrun.1
  · next stop t ht =>
    rw [ht]
    exact hrun.1 ▸ hs

theorem Arises.closed (h : Arises definitions options s) : s.Closed := by
  induction h with
  | defined h => exact closed_defineAll (Session.closed_initial options) h
  | compileName h name ih => exact closed_outcome ih (Session.sound_nameStep ih maxLevels name)
  | resolveRef h r ih =>
    exact closed_outcome ih
      (Session.sound_resolveType maxLevels _ Session.root r [] ih.toValid ih.root_lt)

theorem Arises.compileNames (h : Arises definitions options s) (names : List String)
    {u : Unit} {t : Session} (hrun : names.forM (Session.compileName maxLevels) s = .ok u t) :
    Arises definitions options t := by
  induction names generalizing s with
  | nil =>
    cases hrun
    exact h
  | cons name rest ih =>
    obtain ⟨_, mid, hname, hrest⟩ := exists_of_bind_ok hrun
    have hmid : (outcome (Session.compileName maxLevels name) s).2 = mid := by rw [outcome, hname]
    exact ih (hmid ▸ h.compileName name) hrest

/-- The session of a schema that can be reached is one between calls. -/
theorem Reached.arises {schema : Schema} (h : Reached definitions options schema) :
    Arises definitions options schema.session := by
  induction h with
  | @compile schema h =>
    obtain ⟨s, hd, ht⟩ := exists_of_compile h
    exact (Arises.defined hd).compileNames _ ht
  | @resolve schema h text ih =>
    rcases resolve_snd schema text with heq | ⟨r, heq⟩
    · rwa [heq]
    · rw [heq]
      exact ih.resolveRef r
  | resolveRef h r ih => exact ih.resolveRef r

/-- **A type that contains itself is found exactly if there is one.** No session between calls has a
cycle, those of the schemas that can be reached included, and a call whose step ends fails on a
cycle exactly if that step has made one. -/
theorem recursiveType_exact (definitions : List (String × Definition)) (options : Options) :
    (∀ schema, Reached definitions options schema → Arises definitions options schema.session) ∧
    ∀ s, Arises definitions options s → s.arena.Acyclic ∧
      (∀ name, Session.compileName maxLevels name = Session.atomically (nameStep maxLevels name) ∧
        Exact s (nameStep maxLevels name)) ∧
      ∀ r, Session.resolveRef maxLevels r =
        Session.atomically (Session.resolveType maxLevels Session.root r []) ∧
        Exact s (Session.resolveType maxLevels Session.root r []) := by
  refine ⟨fun _ h => h.arises, fun s h => ?_⟩
  have hs := h.closed
  refine ⟨hs.acyclic, fun name => ⟨rfl, ?_⟩, fun r => ⟨rfl, ?_⟩⟩
  · exact Session.exact_of_sound hs (Session.sound_nameStep hs maxLevels name)
  · exact Session.exact_of_sound hs
      (Session.sound_resolveType maxLevels s Session.root r [] hs.toValid hs.root_lt)

/-- A template each instance of which contains itself. -/
def endless : List (String × Definition) :=
  [("Rec", .template ["T"] (.struct (.object [.typed (some "a")
    (.ofKind (.named "Rec" (some [[.parameter "T"]])))])))]

/-- An instance of it. -/
def endlessInstance : TypeRef := .ofKind (.named "Rec" (some [[.type (.named "u8")]]))

theorem endless_recursiveType : ∃ s id t cyclic, Arises endless {} s ∧ s.arena.Acyclic ∧
    Session.resolveType maxLevels Session.root endlessInstance [] s = .ok id t ∧
    t.arena.OnCycle s.arena.size cyclic ∧
    ∃ name u, Session.resolveRef maxLevels endlessInstance s =
      .error (.failure (.recursiveType name)) u := by
  have hruns : (Schema.compile endless {}).toOption.map (fun schema =>
      ((ending (Session.resolveType maxLevels Session.root endlessInstance [])
        schema.session).toOption.isSome,
        ending (Session.resolveRef maxLevels endlessInstance) schema.session)) =
      some (true, .error (.failure (.recursiveType "Rec<u8>"))) := rfl
  obtain ⟨schema, hschema, hruns⟩ := Option.map_eq_some_iff.1 hruns
  obtain ⟨hstep, hfails⟩ := Prod.mk.inj hruns
  obtain ⟨harises, hexact⟩ := recursiveType_exact endless {}
  have hs := harises schema (.compile (ok_of_toOption hschema))
  obtain ⟨hacyclic, -, hresolve⟩ := hexact _ hs
  obtain ⟨⟨id, t⟩, hrun⟩ := exists_ok_of_isSome hstep
  have hrun := ok_of_ending hrun
  have hfails : ∃ name u, Session.resolveRef maxLevels endlessInstance schema.session =
      .error (.failure (.recursiveType name)) u := ⟨_, error_of_ending hfails⟩
  obtain ⟨cyclic, hcyclic⟩ := ((hresolve endlessInstance).2.fails id t hrun).1 hfails
  exact ⟨schema.session, id, t, cyclic, hs, hacyclic, hrun, hcyclic, hfails⟩

end Schema

end Wireform
