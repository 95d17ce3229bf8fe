import Wireform.Proofs.Identifier.Keys
import Wireform.Proofs.Session.Provenance

/-!
# Which instance answers a reference

An instance is compiled for its arguments when nothing is entered under its text, and then it
answers every reference with the same text, even while it is still being compiled. It answers no
other references: only its own key leads to its slot, and the text tells the arguments.

* `InstanceRun`: an instance that has begun.
* `exists_of_instantiate`: a reference is answered by what is entered, or a new instance begins.
* `InstanceRun.answers`: what is answered by an instance has its text.
* `instantiate_cases`: what becomes of a reference, whether it succeeds or not.
* `Steps.instanced`: whatever a key leads to was there from the start, is a
  definition, or is an instance.
-/

namespace Wireform.Session

variable {o s t u v : Session} {home : ScopeId} {name : String} {template : Template}
  {arguments : List Operand} {slot : TypeId} {levels : ℕ}

/-- An instance of a template that has begun, when nothing was entered under its text. -/
structure InstanceRun where
  home : ScopeId
  name : String
  template : Template
  arguments : List Operand
  /-- The arguments that the template takes: those that are given, or its defaults. -/
  taken : List Operand
  slot : TypeId
  nested : Option ScopeId
  before : Session
  /-- The session in which the body is going to be compiled. -/
  began : Session
  valid : before.Valid
  home_lt : home.index < before.scopes.size
  entered : (before.scope home).entries.get? name = some (.deferred template)
  takes : templateArguments name template arguments = .ok taken
  fresh : ∀ k ∈ instanceKey? name taken, k ∉ (before.scope home).entries.keys
  begun : Begun before began home (instanceKey? name taken) slot nested

/-- What is compiled for an instance of a template. -/
def instanceBody (taken : List Operand) : Template → BlockBody
  | .user _ body => .definition body
  | .builtin builtin => .builtin builtin taken

/-- What the parameters of a template stand for, beside the bindings in force around it; a
builtin template has none. -/
def instanceBindings (around : Bindings) (taken : List Operand) : Template → Bindings
  | .user parameters _ => around.putAll (parameters.zip taken)
  | .builtin _ => []

/-- An instance that is not known is a new block. -/
theorem instantiate_new (resolve : Resolver) {taken : List Operand}
    (htaken : templateArguments name template arguments = .ok taken)
    (hnew : (instanceKey? name taken).bind (s.scope home).entries.get? = none) :
    instantiate resolve home name template arguments s =
      compileBlock resolve home (instanceKey? name taken)
      (instanceText name taken) (instanceBody taken template)
        (instanceBindings (s.scope home).bindings taken template)
      s := by
  simp only [instantiate, htaken, orFail, pure_bind, get_bind, hnew]
  cases template <;> rfl

/-- What is known of an instance answers. -/
theorem instantiate_known (resolve : Resolver) {taken : List Operand} {entry : Entry}
    (htaken : templateArguments name template arguments = .ok taken)
    (hknown : (instanceKey? name taken).bind (s.scope home).entries.get? = some entry) :
    instantiate resolve home name template arguments s = match entry.slot? with
      | some slot => .ok slot s
      | none =>
        .error (.failure (.violation (.instanceIsTemplate (instanceText name taken)))) s := by
  simp only [instantiate, htaken, orFail, pure_bind, get_bind, hknown]
  cases entry <;> rfl

/-- **A reference is answered** by the slot that is entered under its text, and then nothing
happens; or a new instance begins, and what happens then consists of steps. -/
theorem exists_of_instantiate (hs : s.Valid) (hhome : home.index < s.scopes.size)
    (hentered : (s.scope home).entries.get? name = some (.deferred template))
    (hrun : instantiate (resolveType levels) home name template arguments s = .ok slot v) :
    ∃ taken, templateArguments name template arguments = .ok taken ∧
      ((∃ key, instanceKey? name taken = some key ∧ s.slotAt? home key = some slot ∧ v = s) ∨
        ∃ r : InstanceRun, r.home = home ∧ r.name = name ∧ r.template = template ∧
          r.arguments = arguments ∧
          r.taken = taken ∧ r.slot = slot ∧ r.before = s ∧ Steps r.began v) := by
  cases htaken : templateArguments name template arguments with
  | error e =>
    unfold instantiate at hrun
    rw [htaken] at hrun
    cases hrun
  | ok taken =>
    refine ⟨taken, rfl, ?_⟩
    cases hknown : (instanceKey? name taken).bind (s.scope home).entries.get? with
    | some entry =>
      rw [instantiate_known _ htaken hknown] at hrun
      obtain ⟨key, hkey, hentry⟩ := Option.bind_eq_some_iff.1 hknown
      split at hrun
      · next hslot =>
        obtain ⟨rfl, rfl⟩ := EStateM.Result.ok.inj hrun
        exact Or.inl ⟨key, hkey, Option.bind_eq_some_iff.2 ⟨entry, hentry, hslot⟩, rfl⟩
      · cases hrun
    | none =>
      rw [instantiate_new _ htaken hknown] at hrun
      have hnew := fresh_of_unknown hknown
      have hadmits := admits_of_fresh home.index hentered hnew
      obtain ⟨nested, began, -, hbegun, hsteps⟩ :=
        begun_compileBlock (steps_resolveType levels) hs hhome hnew hadmits hrun
      exact Or.inr ⟨⟨home, name, template, arguments, taken, slot, nested, s, began, hs, hhome,
        hentered, htaken, hnew, hbegun⟩, rfl, rfl, rfl, rfl, rfl, rfl, rfl, hsteps⟩

namespace InstanceRun

variable (r : InstanceRun)

theorem began_valid : r.began.Valid :=
  r.begun.valid r.valid r.home_lt (admits_of_fresh r.home.index r.entered r.fresh)

/-- Only its own key leads to the slot of an instance, now and later. -/
theorem slotAt?_iff (hsteps : Steps r.began u) {key : String} :
    u.slotAt? home key = some r.slot ↔ home = r.home ∧ key ∈ instanceKey? r.name r.taken := by
  rw [Steps.slotAt?_iff hsteps r.begun.slot_lt, r.begun.slotAt? r.home_lt r.fresh]
  split
  · next hown => exact ⟨fun _ => hown, fun _ => rfl⟩
  · next hother =>
    refine ⟨fun hbefore => ?_, fun hown => absurd hown hother⟩
    have hlt := r.valid.slotAt?_lt hbefore
    rw [r.begun.slot_eq] at hlt
    exact absurd hlt (Nat.lt_irrefl _)

/-- **What is answered by an instance has its text.** -/
theorem answers (hsteps : Steps r.began u) (hhome : home.index < u.scopes.size)
    (hentered : (u.scope home).entries.get? name = some (.deferred template))
    (hrun : instantiate (resolveType levels) home name template arguments u = .ok r.slot v) :
    ∃ taken key, templateArguments name template arguments = .ok taken ∧ home = r.home ∧
      instanceKey? name taken = some key ∧ instanceKey? r.name r.taken = some key := by
  obtain ⟨taken, htaken, ⟨key, hkey, hslot, -⟩ | ⟨other, -, -, -, -, -, hslot, hbefore, -⟩⟩ :=
    exists_of_instantiate (Steps.valid hsteps r.began_valid) hhome hentered hrun
  · obtain ⟨rfl, hown⟩ := (r.slotAt?_iff hsteps).1 hslot
    exact ⟨taken, key, htaken, rfl, hkey, hown⟩
  · -- a new instance would have a new slot
    have hnew := other.begun.slot_eq
    have hold := r.begun.slot_lt.trans_le (Steps.size_le hsteps)
    rw [hslot, hbefore] at hnew
    omega

/-- The namespace in which the body is compiled: its own one, if it has any. -/
def inner : ScopeId := r.nested.getD r.home

/-- What is compiled. -/
def body : BlockBody := instanceBody r.taken r.template

/-- The bindings in force in it. -/
def bindings : Bindings := instanceBindings (r.before.scope r.home).bindings r.taken r.template

/-- What happens once it has begun: its body is compiled, and goes into its slot. -/
def rest (levels : ℕ) : Compile TypeId := do
  let ident := instanceText r.name r.taken
  let (layout, size) ← compileBody (resolveType levels) r.home r.nested ident r.bindings r.body
  endBlock r.home (instanceKey? r.name r.taken) r.slot ⟨ident, size, layout, r.nested⟩
  return r.slot

/-- An operand that is a type is taken as it is given. -/
theorem taken_of_arguments {i : ℕ} {reference : TypeRef}
    (h : r.arguments[i]? = some (.type reference)) :
    r.taken[i]? = some (.type reference) := by
  rcases templateArguments_eq r.takes with heq | ⟨hnone, -⟩
  · rwa [heq]
  · rw [hnone] at h
    cases h

/-- A parameter of a template is bound to the operand in its place, if no later one has its name. -/
theorem bindings_parameter {parameters : List String} {body : Definition} {parameter : String}
    {operand : Operand} {i : ℕ} (htemplate : r.template = .user parameters body)
    (hparameter : parameters[i]? = some parameter) (hlast : parameter ∉ parameters.drop (i + 1))
    (htaken : r.taken[i]? = some operand) :
    r.bindings.get? parameter = some operand := by
  obtain ⟨hi, rfl⟩ := List.getElem?_eq_some_iff.1 hparameter
  obtain ⟨hi', rfl⟩ := List.getElem?_eq_some_iff.1 htaken
  have hzip : i < (parameters.zip r.taken).length := by
    rw [List.length_zip]
    omega
  have hsplit : parameters.zip r.taken = (parameters.zip r.taken).take i ++
      (parameters[i], r.taken[i]) :: (parameters.zip r.taken).drop (i + 1) := by
    conv_lhs => rw [← List.take_append_drop i (parameters.zip r.taken),
      List.drop_eq_getElem_cons hzip, List.getElem_zip]
  have hbehind : parameters[i] ∉ Assoc.keys ((parameters.zip r.taken).drop (i + 1)) := by
    intro hmem
    obtain ⟨⟨name, operand⟩, hentry, hname⟩ := List.mem_map.1 hmem
    rw [List.zip, List.drop_zipWith] at hentry
    exact hlast (hname ▸ (List.of_mem_zip hentry).1)
  rw [bindings, htemplate, instanceBindings, hsplit]
  exact Assoc.get?_putAll_append hbehind

/-- An instance that ends answers by its slot. -/
theorem slot_of_rest (hrun : r.rest levels s = .ok slot t) : slot = r.slot := by
  obtain ⟨_, _, -, hrun⟩ := exists_of_bind_ok hrun
  obtain ⟨_, _, -, hrun⟩ := exists_of_bind_ok hrun
  exact (EStateM.Result.ok.inj hrun).1.symm

end InstanceRun

/-- **What becomes of a reference**, whether it succeeds or not. It fails if a template is entered
under its text or too many blocks are in progress; otherwise it is answered by the slot that is
entered, or an instance begins. -/
theorem instantiate_cases (levels : ℕ) (hs : s.Valid) (hhome : home.index < s.scopes.size)
    (hentered : (s.scope home).entries.get? name = some (.deferred template)) {taken : List Operand}
    (htaken : templateArguments name template arguments = .ok taken) :
    ((∃ stop, instantiate (resolveType levels) home name template arguments s = .error stop s) ∧
      (s.options.maxDepth ≤ s.depth ∨ ∃ key other, instanceKey? name taken = some key ∧
        (s.scope home).entries.get? key = some (.deferred other))) ∨
    (∃ key slot, instanceKey? name taken = some key ∧ s.slotAt? home key = some slot ∧
      instantiate (resolveType levels) home name template arguments s = .ok slot s) ∨
    ∃ r : InstanceRun, r.home = home ∧ r.name = name ∧ r.template = template ∧
      r.arguments = arguments ∧ r.before = s ∧
      beginBlock r.home (instanceKey? r.name r.taken) r.body.locals? r.bindings r.before =
        .ok (r.slot, r.nested) r.began ∧
      instantiate (resolveType levels) home name template arguments s = r.rest levels r.began ∧
      ∀ slot t, r.rest levels r.began = .ok slot t → Steps r.began t := by
  cases hknown : (instanceKey? name taken).bind (s.scope home).entries.get? with
  | some entry =>
    obtain ⟨key, hkey, hentry⟩ := Option.bind_eq_some_iff.1 hknown
    have hanswer := instantiate_known (resolveType levels) htaken hknown
    cases hslot : entry.slot? with
    | some slot =>
      rw [hslot] at hanswer
      exact Or.inr (Or.inl ⟨key, slot, hkey,
        Option.bind_eq_some_iff.2 ⟨entry, hentry, hslot⟩, hanswer⟩)
    | none =>
      rw [hslot] at hanswer
      cases entry with
      | deferred other => exact Or.inl ⟨⟨_, hanswer⟩, Or.inr ⟨key, other, hkey, hentry⟩⟩
      | compiled slot => cases hslot
      | locked slot inner => cases hslot
  | none =>
    have hnew := fresh_of_unknown hknown
    have hblock := instantiate_new (resolveType levels) htaken hknown
    by_cases hdepth : s.options.maxDepth ≤ s.depth
    · rw [compileBlock, get_bind, if_pos hdepth] at hblock
      exact Or.inl ⟨⟨_, hblock⟩, Or.inl hdepth⟩
    obtain ⟨nested, began, hbegin, hbegun⟩ :=
      beginBlock_eq hhome (instanceBody taken template).locals?
      (instanceBindings (s.scope home).bindings taken template) hnew
    let r : InstanceRun :=
      ⟨home, name, template, arguments, taken, _, nested, s, began, hs, hhome, hentered, htaken,
      hnew, hbegun⟩
    have hrest : compileBlock (resolveType levels) home (instanceKey? name taken)
        (instanceText name taken)
        (instanceBody taken template) (instanceBindings (s.scope home).bindings taken template) s =
          r.rest levels r.began := by
      rw [compileBlock, get_bind, if_neg hdepth, bind_of_ok hbegin]
      rfl
    refine Or.inr (Or.inr ⟨r, rfl, rfl, rfl, rfl, rfl, hbegin, hblock.trans hrest,
      fun slot t hrun => ?_⟩)
    have hadmits := admits_of_fresh home.index hentered hnew
    obtain ⟨nested', began', hbegin', -, hsteps⟩ :=
      begun_compileBlock (steps_resolveType levels) hs hhome hnew hadmits (hrest.trans hrun)
    obtain ⟨-, rfl⟩ := EStateM.Result.ok.inj (hbegin.symm.trans hbegin')
    exact hsteps

/-- A block without definitions of its own has no namespace of its own. -/
theorem nested_of_beginBlock {key : Option String} {bindings : Bindings} {nested : Option ScopeId}
    (hrun : beginBlock home key none bindings s = .ok (slot, nested) t) : nested = none := by
  obtain ⟨id, u, -, hrun⟩ := exists_of_bind_ok hrun
  obtain ⟨inner, v, hopen, hrun⟩ := exists_of_bind_ok hrun
  obtain ⟨rfl, rfl⟩ := EStateM.Result.ok.inj hopen
  obtain ⟨_, _, -, hrun⟩ := exists_of_bind_ok hrun
  obtain ⟨_, _, -, hrun⟩ := exists_of_bind_ok hrun
  obtain ⟨⟩ := (EStateM.Result.ok.inj hrun).1
  rfl

/-! ### Where keys come from -/

/-- A definition of a namespace stays there. -/
theorem Step.mem_definitions (hst : Step s t) {key : String}
    (h : key ∈ (s.scope home).definitions.keys) :
    key ∈ (t.scope home).definitions.keys := by
  have hhome : home.index < s.scopes.size := by
    by_contra hge
    rw [scope_of_size_le (Nat.le_of_not_lt hge)] at h
    cases h
  cases hst with
  | adds _ grown _ _ _ => rwa [grown.definitions hhome]
  | begins _ _ _ _ _ begun =>
    rw [scope_eq (begun.scopes _ _ (getElem?_scopes hhome))]
    split
    · exact h
    · exact h
  | ends _ _ _ _ _ ended _ =>
    have hafter := ended.scopes home.index
    rw [getElem?_scopes hhome, Option.map_some] at hafter
    rw [scope_eq hafter, settledScope]
    split
    · exact h
    · exact h

/-- **A key leads to a slot for one of three reasons**: it did so from the start, it is the name of
a definition, or it is the text of an instance that has begun. -/
theorem Steps.instanced (hst : Steps o s) {key : String} (h : s.slotAt? home key = some slot) :
    o.slotAt? home key = some slot ∨ key ∈ (s.scope home).definitions.keys ∨
      ∃ r : InstanceRun, r.home = home ∧ instanceKey? r.name r.taken = some key ∧ r.slot = slot ∧
        Steps r.began s := by
  induction hst with
  | refl => exact Or.inl h
  | @tail s t hos hstep ih =>
    have hold (hthen : s.slotAt? home key = some slot) : o.slotAt? home key = some slot ∨
        key ∈ (t.scope home).definitions.keys ∨ ∃ r : InstanceRun, r.home = home ∧
          instanceKey? r.name r.taken = some key ∧ r.slot = slot ∧ Steps r.began t := by
      rcases ih hthen with hstart | hdefined | ⟨r, hr, hkey, hslot, hsteps⟩
      · exact Or.inl hstart
      · exact Or.inr (Or.inl (hstep.mem_definitions hdefined))
      · exact Or.inr (Or.inr ⟨r, hr, hkey, hslot, hsteps.tail hstep⟩)
    have hstep' := hstep
    cases hstep with
    | adds _ _ _ _ slotAt? => exact hold ((slotAt? home key).symm.trans h)
    | ends _ home_lt fresh begun body ended _ =>
      exact hold ((begun.slotAt?_end home_lt fresh body ended home key).symm.trans h)
    | @begins _ _ other own slot' nested valid home_lt fresh admits origin begun =>
      rw [begun.slotAt? home_lt fresh] at h
      split at h
      · next hown =>
        -- the block that begins is that of a definition or of an instance
        obtain ⟨rfl, hk⟩ := hown
        obtain rfl := Option.some.inj h
        rcases origin key hk with hdefined
          | ⟨name, template, arguments, taken, hentered, htaken, hkey⟩
        · exact Or.inr (Or.inl (hstep'.mem_definitions hdefined))
        · obtain rfl : own = instanceKey? name taken := (Option.mem_def.1 hk).trans hkey.symm
          exact Or.inr (Or.inr ⟨⟨home, name, template, arguments, taken, slot', nested, s, t, valid,
            home_lt, hentered, htaken, fresh, begun⟩, rfl, hkey, rfl, .refl⟩)
      · exact hold h

end Wireform.Session
