import Wireform.Proofs.Session.Variants

/-!
# What runs consist of

Whatever a run does to a session is made of steps of three kinds: types other than enums, namespaces
and templates are added; a block begins; and a block that has begun ends. The enum that a block
leaves in its slot is the outcome of a run that compiled it. What every step keeps, all runs keep.

* `Step`: one step.
* `steps_compileBlock`: a block begins and ends.
* `steps_resolveType`: any reference, at any number of levels.
-/

namespace Wireform

/-- The slot to which an entry leads, whether the type in it is finished or not. -/
def Entry.slot? : Entry → Option TypeId
  | .compiled slot => some slot
  | .deferred _ => none
  | .locked slot _ => some slot

namespace Session

/-- The slot to which a key of a namespace leads. -/
def slotAt? (s : Session) (home : ScopeId) (key : String) : Option TypeId :=
  ((s.scope home).entries.get? key).bind Entry.slot?

/-- A key under which a block may begin is the name of a definition of the namespace, or the text of
an instance of one of its templates. -/
def Originates (s : Session) (home : ScopeId) (key : String) : Prop :=
  key ∈ (s.scope home).definitions.keys ∨ ∃ name template arguments taken,
    (s.scope home).entries.get? name = some (.deferred template) ∧
      templateArguments name template arguments = .ok taken ∧ instanceKey? name taken = some key

/-- A step of a run. -/
inductive Step : Session → Session → Prop where
  /-- Only what is no enum and has no key is added. -/
  | adds {s t : Session} (valid : t.Valid) (grown : Persists s t)
      (emptyTuple : ∀ id, s.emptyTuple = some id → t.emptyTuple = some id)
      (plain : ∀ id type e, t.arena.get? id = some type → type.layout = .enum e →
        s.arena.get? id = some type)
      (slotAt? : ∀ home key, t.slotAt? home key = s.slotAt? home key) : Step s t
  /-- A block begins under a new key. -/
  | begins {s t : Session} {home : ScopeId} {key : Option String} {slot : TypeId}
      {nested : Option ScopeId} (valid : s.Valid) (home_lt : home.index < s.scopes.size)
      (fresh : ∀ k ∈ key, k ∉ (s.scope home).entries.keys)
      (admits : ∀ k ∈ key, (s.scope home).Admits home.index k)
      (origin : ∀ k ∈ key, s.Originates home k) (begun : Begun s t home key slot nested) :
      Step s t
  /-- A block that began in `s` ends. -/
  | ends {s t u v : Session} {home : ScopeId} {key : Option String} {slot : TypeId}
      {nested : Option ScopeId} {type : CompiledType} (valid : v.Valid)
      (home_lt : home.index < s.scopes.size) (fresh : ∀ k ∈ key, k ∉ (s.scope home).entries.keys)
      (begun : Begun s t home key slot nested) (body : Grows t u)
      (ended : Ended u v home key slot type)
      (enum : ∀ e, type.layout = .enum e → ∃ r : EnumRun, r.slot = slot ∧ r.after = v) :
      Step u v

/-- A part of a run. -/
abbrev Steps : Session → Session → Prop := Relation.ReflTransGen Step

/-- Whatever it resolves, it does so in steps. -/
abbrev Resolver.Walks (resolve : Resolver) : Prop := ∀ o, resolve.Keeps (Steps o)

variable {o s t u : Session} {scope home : ScopeId} {resolve : Resolver}

/-! ### Steps that add -/

/-- An advance that leaves enums and namespaces alone is a step. -/
theorem Steps.advance (h : Steps o s) (hst : Advances s t)
    (plain : ∀ id type e, t.arena.get? id = some type → type.layout = .enum e →
      s.arena.get? id = some type)
    (slotAt? : ∀ home key, t.slotAt? home key = s.slotAt? home key) : Steps o t :=
  h.tail (.adds hst.valid hst.toGrows.persists hst.precedes.emptyTuple plain slotAt?)

theorem steps_push (hs : s.Valid) (h : Steps o s) {type : CompiledType} (ht : s.Holds type)
    (hl : ∀ e, type.layout ≠ .enum e) : s.Sound (push type) fun _ t => Steps o t := by
  refine ⟨advances_push hs ht,
    h.advance (advances_push hs ht) (fun id found e hid hfound => ?_) fun _ _ => rfl⟩
  change (s.arena.push type).2.get? id = some found at hid
  rw [Arena.get?_push] at hid
  split at hid
  · obtain rfl := Option.some.inj hid
    exact absurd hfound (hl e)
  · exact hid

/-- A new namespace has no keys. -/
theorem steps_openLocals (hs : s.Valid) (hscope : scope.index < s.scopes.size) (h : Steps o s)
    (bindings : Bindings) (locals : Option (Assoc Definition)) :
    s.Sound (openLocals scope bindings locals) fun inner t =>
      Steps o t ∧ ∀ id, inner = some id → id.index < t.scopes.size := by
  refine (sound_openLocals hs hscope bindings locals).run.mono fun inner t hst hrun => ?_
  obtain ⟨hrun, hinner⟩ := hrun
  refine ⟨?_, hinner⟩
  cases locals with
  | none =>
    obtain ⟨-, rfl⟩ := EStateM.Result.ok.inj hrun
    exact h
  | some definitions =>
    obtain ⟨-, rfl⟩ := EStateM.Result.ok.inj hrun
    refine h.advance hst (fun _ _ _ hid _ => hid) fun home key => ?_
    unfold slotAt?
    rw [scope_push]
    split
    · next hi => rw [scope_of_size_le hi.ge]
    · rfl

/-- A template that is entered has no slot. -/
theorem slotAt?_insertTemplate {name : String} {template : Template}
    (hnew : name ∉ (s.scope home).entries.keys)
    (hrun : insert home name (.deferred template) s = .ok () t) :
    t.arena = s.arena ∧ ∀ other key, t.slotAt? other key = s.slotAt? other key := by
  obtain ⟨scopes, hinsert, hsize, hscopes⟩ := insert_eq hnew (Entry.deferred template)
  obtain ⟨-, rfl⟩ := EStateM.Result.ok.inj (hinsert.symm.trans hrun)
  refine ⟨rfl, fun other key => ?_⟩
  unfold slotAt?
  by_cases hother : other.index < s.scopes.size
  · have hafter := hscopes other.index _ (getElem?_scopes hother)
    rw [scope_eq (s := { s with scopes, journal := (home, name) :: s.journal }) hafter]
    split
    · rw [Assoc.get?_append]
      cases (s.scope other).entries.get? key with
      | some entry => rfl
      | none =>
        rw [Option.none_or, Assoc.get?]
        split <;> rfl
    · rfl
  · rw [scope_of_size_le (s := s) (by omega), scope_of_size_le (by rw [hsize]; omega)]

theorem steps_insertTemplate (hs : s.Valid) (hhome : home.index < s.scopes.size)
    (h : Steps o s) {name : String} (template : Template)
    (hnew : name ∉ (s.scope home).entries.keys) (hadmits : (s.scope home).Admits home.index name)
    (hdefinition : ∀ definition, (s.scope home).definitions.get? name = some definition →
      definition.IsTemplate) :
    s.Sound (insert home name (.deferred template)) fun _ t => Steps o t := by
  refine (sound_insertTemplate hs hhome template hnew hadmits hdefinition).run.mono
    fun _ t hst hrun => ?_
  obtain ⟨harena, hslotAt?⟩ := slotAt?_insertTemplate hnew hrun.1
  exact h.advance hst (fun _ _ _ hid _ => harena ▸ hid) hslotAt?

/-! ### Layouts -/

theorem steps_sharedEmptyTuple (hs : s.Valid) (h : Steps o s) :
    s.Sound sharedEmptyTuple fun _ t => Steps o t := by
  refine (sound_sharedEmptyTuple hs).run.mono fun id t hst hrun => ?_
  obtain ⟨hrun, -⟩ := hrun
  unfold sharedEmptyTuple at hrun
  obtain ⟨_, _, ⟨⟩, hrun⟩ := exists_of_bind_ok hrun
  cases hfound : s.emptyTuple with
  | some found =>
    simp only [hfound] at hrun
    obtain ⟨-, rfl⟩ := EStateM.Result.ok.inj hrun
    exact h
  | none =>
    simp only [hfound] at hrun
    obtain ⟨pushed, mid, hpush, hrun⟩ := exists_of_bind_ok hrun
    obtain ⟨-, rfl⟩ := EStateM.Result.ok.inj hpush
    obtain ⟨_, _, ⟨⟩, hrun⟩ := exists_of_bind_ok hrun
    obtain ⟨-, rfl⟩ := EStateM.Result.ok.inj hrun
    refine h.advance hst (fun slot type e hslot hl => ?_) fun _ _ => rfl
    -- the slot that has come is that of a struct
    change (s.arena.push _).2.get? slot = some type at hslot
    rw [Arena.get?_push] at hslot
    split at hslot
    · obtain rfl := Option.some.inj hslot
      cases hl
    · exact hslot

theorem steps_variantLayout (hs : s.Valid) (h : Steps o s) (shape : EnumShape) (target : String)
    (entry : EnumEntry) (payload : TypeId) :
    s.Sound (variantLayout shape target entry payload) fun _ t => Steps o t := by
  unfold variantLayout
  refine Sound.get_bind ?_
  cases shape with
  | tuple =>
    dsimp only
    split
    · exact Sound.bind (steps_sharedEmptyTuple hs h) fun id t hst ht => Sound.pure hst.valid ht
    · exact Sound.pure hs h
  | object => exact Sound.pure hs h

section Layouts

variable (hr : resolve.Walks)

include hr

theorem steps_compileFields (hs : s.Valid) (hscope : scope.index < s.scopes.size) (h : Steps o s)
    (bindings : Bindings) (shape : StructShape) (p : PartialStruct) (fields : List Field) :
    s.Sound (compileFields resolve scope bindings shape p fields) fun _ t => Steps o t := by
  induction fields generalizing s p with
  | nil => exact Sound.pure hs h
  | cons field rest ih =>
    refine Sound.bind (p := fun _ t => Steps o t) ?_
      fun p t hst ht => ih hst.valid (hst.scope_lt hscope) ht p
    cases field with
    | constant type value =>
      refine Sound.bind (hr o s scope type bindings hs hscope h) fun id t hst ht => ?_
      refine Sound.bind (keeps_maxSize hst.valid ht id) fun size u htu hu => ?_
      exact Sound.get_bind (Sound.pure htu.valid hu)
    | literal key value =>
      refine Sound.bind (Sound.orFail hs fieldPlace_ordinary fun _ _ => h) fun r t hst ht => ?_
      exact Sound.pure hst.valid ht
    | typed key type =>
      refine Sound.bind (Sound.orFail hs fieldPlace_ordinary fun _ _ => h) fun r t hst ht => ?_
      refine Sound.bind (hr o t scope type bindings hst.valid (hst.scope_lt hscope) ht)
        fun id u htu hu => ?_
      refine Sound.bind (keeps_maxSize htu.valid hu id) fun size v huv hv => ?_
      exact Sound.pure huv.valid hv

theorem steps_compileStruct (hs : s.Valid) (hscope : scope.index < s.scopes.size) (h : Steps o s)
    (body : StructBody) (bindings : Bindings) :
    s.Sound (compileStruct resolve scope body bindings)
      fun r t => Steps o t ∧ ∀ e, r.1 ≠ .enum e := by
  unfold compileStruct
  split
  · exact Sound.pure hs ⟨h, nofun⟩
  · refine Sound.bind (steps_compileFields hr hs hscope h bindings _ _ body.fields)
      fun p t hst ht => ?_
    exact Sound.pure hst.valid ⟨ht, nofun⟩

theorem steps_compileArray (hsound : resolve.Sound) (hs : s.Valid)
    (hscope : scope.index < s.scopes.size) (h : Steps o s) (element : TypeRef) (size : Expr)
    (bindings : Bindings) :
    s.Sound (compileArray resolve scope element size bindings) fun _ t => Steps o t := by
  rw [compileArray_eq]
  refine Sound.bind (keeps_evaluate (hr o) hs hscope h bindings size) fun operand t hst ht => ?_
  refine Sound.bind (Sound.orFail hst.valid toSize_ordinary fun _ _ => ht) fun size u htu hu => ?_
  have hsu := (hst.trans htu).scope_lt hscope
  refine Sound.bind ((hr o u scope _ bindings htu.valid hsu hu).and
    (hsound u scope _ bindings htu.valid hsu)) fun id v huv hv => ?_
  exact Sound.get_bind (steps_push huv.valid hv.1 (holds_arrayType hv.2 size _) nofun)

theorem steps_compileVariants (hs : s.Valid) (hscope : scope.index < s.scopes.size)
    (h : Steps o s) (bindings : Bindings) (shape : EnumShape) (target : String) (greatest : Size)
    (entries : List EnumEntry) :
    s.Sound (compileVariants resolve scope bindings shape target greatest entries)
      fun _ t => Steps o t := by
  induction entries generalizing s greatest with
  | nil => exact Sound.pure hs h
  | cons entry rest ih =>
    unfold compileVariants
    refine Sound.bind (hr o s scope _ bindings hs hscope h) fun payload t hst ht => ?_
    refine Sound.bind (steps_variantLayout hst.valid ht shape target entry payload)
      fun variant u htu hu => ?_
    refine Sound.bind (keeps_maxSize htu.valid hu variant.payload) fun size v huv hv => ?_
    have hsv := (hst.trans htu).trans huv
    refine Sound.bind (ih hsv.valid (hsv.scope_lt hscope) hv (greatest.max size))
      fun r w hvw hw => ?_
    exact Sound.pure hvw.valid hw

theorem steps_compileEnum (hs : s.Valid) (hscope : scope.index < s.scopes.size)
    (h : Steps o s) (body : EnumBody) (bindings : Bindings) :
    s.Sound (compileEnum resolve scope body bindings) fun _ t => Steps o t := by
  unfold compileEnum
  refine Sound.get_bind ?_
  refine Sound.bind (hr o s scope _ bindings hs hscope h) fun tag t hst ht => ?_
  refine Sound.bind (steps_compileVariants hr hst.valid (hst.scope_lt hscope) ht bindings _ _ _ _)
    fun r u htu hu => ?_
  refine Sound.bind (keeps_maxSize htu.valid hu tag) fun size v huv hv => ?_
  exact Sound.pure huv.valid hv

theorem steps_typeArgument (hs : s.Valid) (hscope : scope.index < s.scopes.size) (h : Steps o s)
    (builtin : Builtin) (operand : Operand) :
    s.Sound (typeArgument resolve scope builtin operand) fun _ t => Steps o t := by
  cases operand with
  | type r => exact hr o s scope r [] hs hscope h
  | constant value => exact Sound.fail (by simp)

theorem steps_compileBuiltin (hs : s.Valid) (hscope : scope.index < s.scopes.size) (h : Steps o s)
    (builtin : Builtin) (arguments : List Operand) :
    s.Sound (compileBuiltin resolve scope builtin arguments)
      fun r t => Steps o t ∧ ∀ e, r.1 ≠ .enum e := by
  unfold compileBuiltin
  split
  · split
    · exact Sound.pure hs ⟨h, nofun⟩
    · exact Sound.fail (by simp)
  · exact Sound.fail (by simp)
  · refine Sound.bind (steps_typeArgument hr hs hscope h _ _) fun id t hst ht => ?_
    exact Sound.pure hst.valid ⟨ht, nofun⟩
  · refine Sound.bind (steps_typeArgument hr hs hscope h _ _) fun id t hst ht => ?_
    refine Sound.bind (Sound.orFail hst.valid toSize_ordinary fun _ _ => ht)
      fun length u htu hu => ?_
    refine Sound.bind (keeps_maxSize htu.valid hu id) fun size v huv hv => ?_
    exact Sound.pure huv.valid ⟨hv, nofun⟩
  · refine Sound.bind (steps_typeArgument hr hs hscope h _ _) fun id t hst ht => ?_
    refine Sound.bind (Sound.orFail hst.valid toSize_ordinary fun _ _ => ht) fun size u htu hu => ?_
    exact Sound.pure htu.valid ⟨hu, nofun⟩
  · refine Sound.bind (Sound.orFail hs toSize_ordinary fun _ _ => h) fun count t hst ht => ?_
    exact Sound.pure hst.valid ⟨ht, nofun⟩
  · exact Sound.fail (by simp)

/-- Only the body of an enum becomes an enum. -/
theorem steps_compileBody (hs : s.Valid) (hhome : home.index < s.scopes.size)
    {nested : Option ScopeId} (hnested : ∀ id, nested = some id → id.index < s.scopes.size)
    (h : Steps o s) (ident : String) (bindings : Bindings) (body : BlockBody) :
    s.Sound (compileBody resolve home nested ident bindings body) fun r t =>
      Steps o t ∧ ∀ e, r.1 = .enum e → ∃ body', body = .definition (.enum body') := by
  have hscope : (nested.getD home).index < s.scopes.size := by
    cases nested with
    | none => exact hhome
    | some id => exact hnested id rfl
  cases body with
  | builtin builtin arguments =>
    exact (steps_compileBuiltin hr hs hhome h builtin arguments).mono
      fun _ _ _ hr => ⟨hr.1, fun e he => absurd he (hr.2 e)⟩
  | definition definition =>
    cases definition with
    | struct body =>
      exact (steps_compileStruct hr hs hscope h body bindings).mono
        fun _ _ _ hr => ⟨hr.1, fun e he => absurd he (hr.2 e)⟩
    | enum body =>
      exact (steps_compileEnum hr hs hscope h body bindings).mono
        fun _ _ _ ht => ⟨ht, fun _ _ => ⟨body, rfl⟩⟩
    | synonym target =>
      simp only [compileBody, compileDefinition]
      split
      · exact Sound.fail (by simp)
      · refine Sound.bind (hr o s _ target bindings hs hscope h) fun id t hst ht => ?_
        refine Sound.bind (keeps_maxSize hst.valid ht id) fun size u htu hu => ?_
        refine Sound.pure htu.valid ⟨hu, fun e heq => ?_⟩
        cases heq
    | template parameters body => exact Sound.fail (by simp)

end Layouts

/-! ### Blocks and names -/

section Names

variable {levels : ℕ} (hr : (resolveType levels).Walks)

include hr

/-- A block that has been compiled began, and what has happened since consists of steps. -/
theorem begun_compileBlock {key : Option String} (hs : s.Valid) (hhome : home.index < s.scopes.size)
    (hkey : ∀ k ∈ key, k ∉ (s.scope home).entries.keys)
    (hadmits : ∀ k ∈ key, (s.scope home).Admits home.index k) {ident : String} {body : BlockBody}
    {bindings : Bindings} {slot : TypeId} {v : Session}
    (hrun : compileBlock (resolveType levels) home key ident body bindings s = .ok slot v) :
    ∃ nested t, beginBlock home key body.locals? bindings s = .ok (slot, nested) t ∧
      Begun s t home key slot nested ∧ Steps t v := by
  have hsound :=
    sound_compileBlock hs hhome hkey hadmits ident body bindings fun t nested ht hhome hnested =>
    sound_compileBody (sound_resolveType levels) ht hhome hnested ident bindings body
  have hsv := (hsound.of_ok hrun).1
  obtain ⟨nested, t, layout, size, u, hbegin, hbegun, hbody, hended⟩ :=
    exists_of_compileBlock hhome hkey hrun
  obtain ⟨htu, hsteps, henum⟩ := (steps_compileBody hr (hbegun.valid hs hhome hadmits)
    (hhome.trans_le hbegun.scopes_size_le) hbegun.nested .refl ident bindings body).of_ok hbody
  refine ⟨nested, t, hbegin, hbegun,
    hsteps.tail (.ends hsv.valid hhome hkey hbegun htu.toGrows hended fun e he => ?_)⟩
  obtain ⟨body', rfl⟩ := henum e he
  exact ⟨⟨levels, home, key, ident, body', bindings, slot, s, v, hs, hhome, hkey, hadmits, hrun⟩,
    rfl, rfl⟩

/-- **A block begins and ends.** -/
theorem steps_compileBlock {key : Option String} (hs : s.Valid) (hhome : home.index < s.scopes.size)
    (hkey : ∀ k ∈ key, k ∉ (s.scope home).entries.keys)
    (hadmits : ∀ k ∈ key, (s.scope home).Admits home.index k)
    (horigin : ∀ k ∈ key, s.Originates home k) (h : Steps o s) (ident : String) (body : BlockBody)
    (bindings : Bindings) :
    s.Sound (compileBlock (resolveType levels) home key ident body bindings)
      fun _ t => Steps o t := by
  have hsound :=
    sound_compileBlock hs hhome hkey hadmits ident body bindings fun t nested ht hhome hnested =>
    sound_compileBody (sound_resolveType levels) ht hhome hnested ident bindings body
  refine hsound.run.mono fun slot v _ hrun => ?_
  obtain ⟨nested, t, -, hbegun, htv⟩ := begun_compileBlock hr hs hhome hkey hadmits hrun.1
  exact (h.tail (.begins hs hhome hkey hadmits horigin hbegun)).trans htv

theorem steps_resolveEntry (hs : s.Valid) (hhome : home.index < s.scopes.size) (h : Steps o s)
    (name : String) :
    s.Sound (resolveEntry (resolveType levels) home name) fun _ t => Steps o t := by
  unfold resolveEntry
  refine Sound.get_bind ?_
  dsimp only
  split
  · exact Sound.pure hs h
  · exact Sound.pure hs h
  · exact Sound.pure hs h
  · next hnone =>
    have hnew := (Assoc.get?_eq_none_iff _ _).1 hnone
    split
    · exact Sound.fail (by simp)
    · next parameters body hdefinition =>
      have hinsert := steps_insertTemplate hs hhome h (.user parameters body) hnew
        (admits_of_definition home.index hdefinition) fun definition hd => by
          obtain rfl := Option.some.inj (hdefinition.symm.trans hd)
          trivial
      exact Sound.bind hinsert fun _ t hst ht => Sound.pure hst.valid ht
    · next definition hdefinition =>
      refine Sound.bind (steps_compileBlock hr hs hhome ?_ ?_ ?_ h name _ _) fun id t hst ht =>
        Sound.pure hst.valid ht
      · rintro k ⟨⟩
        exact hnew
      · rintro k ⟨⟩
        exact admits_of_definition home.index hdefinition
      · rintro k ⟨⟩
        exact Or.inl (Assoc.mem_keys (Assoc.mem_of_get? hdefinition))

theorem steps_instantiate (hs : s.Valid) (hhome : home.index < s.scopes.size) (h : Steps o s)
    {name : String} {template : Template}
    (hentered : (s.scope home).entries.get? name = some (.deferred template))
    (arguments : List Operand) :
    s.Sound (instantiate (resolveType levels) home name template arguments)
      fun _ t => Steps o t := by
  unfold instantiate
  refine Sound.bind
    (p := fun taken t => templateArguments name template arguments = .ok taken ∧ Steps o t)
    (Sound.orFail hs templateArguments_ordinary fun _ htaken => ⟨htaken, h⟩)
    fun taken t hst ht => ?_
  obtain ⟨htaken, ht⟩ := ht
  have hentered := hst.toGrows.persists.entry hhome hentered
  have hhome := hst.scope_lt hhome
  refine Sound.get_bind ?_
  dsimp only
  split
  · exact Sound.pure hst.valid ht
  · exact Sound.pure hst.valid ht
  · exact Sound.fail (by simp)
  · next hnone =>
    have hnew := fresh_of_unknown hnone
    have hadmits := admits_of_fresh home.index hentered hnew
    have horigin : ∀ k ∈ instanceKey? name taken, t.Originates home k :=
      fun k hk => Or.inr ⟨name, template, arguments, taken, hentered, htaken, hk⟩
    split
    · exact steps_compileBlock hr hst.valid hhome hnew hadmits horigin ht _ _ _
    · exact steps_compileBlock hr hst.valid hhome hnew hadmits horigin ht _ _ _

theorem steps_resolveInstance (hs : s.Valid) (hscope : scope.index < s.scopes.size)
    (h : Steps o s) (name : String) (arguments : List Operand) (localOnly : Bool) :
    s.Sound (resolveInstance (resolveType levels) scope name arguments localOnly)
      fun _ t => Steps o t := by
  unfold resolveInstance
  refine Sound.get_bind ?_
  split
  · exact Sound.fail (by simp)
  · next home hfound =>
    have hhome := hs.lookup hscope hfound
    refine Sound.bind ((steps_resolveEntry hr hs hhome h name).and
      (sound_resolveEntry (sound_resolveType levels) hs hhome name)) fun r t hst ht => ?_
    cases r with
    | type id => exact Sound.fail (by simp)
    | template template =>
      exact steps_instantiate hr hst.valid (hst.scope_lt hhome) ht.1 ht.2 arguments

theorem steps_resolveName (hs : s.Valid) (hscope : scope.index < s.scopes.size)
    (h : Steps o s) (name : String) (arguments : Option (List Operand)) (localOnly : Bool) :
    s.Sound (resolveName (resolveType levels) scope name arguments localOnly)
      fun _ t => Steps o t := by
  cases arguments with
  | some arguments => exact steps_resolveInstance hr hs hscope h name arguments localOnly
  | none =>
    simp only [resolveName]
    refine Sound.get_bind ?_
    split
    · exact Sound.fail (by simp)
    · next home hfound =>
      refine Sound.bind (steps_resolveEntry hr hs (hs.lookup hscope hfound) h name)
        fun r t hst ht => ?_
      split
      · exact Sound.pure hst.valid ht
      · exact steps_resolveInstance hr hst.valid (hst.scope_lt hscope) ht name [] localOnly
      · exact Sound.fail (by simp)

theorem steps_resolvePath (hs : s.Valid) (hscope : scope.index < s.scopes.size) (h : Steps o s)
    (whole : TypeRef) (bindings : Bindings) (localOnly : Bool) (segments : List PathSegment) :
    s.Sound (resolvePath (resolveType levels) whole bindings scope localOnly segments)
      fun _ t => Steps o t := by
  induction segments generalizing s scope localOnly with
  | nil => exact Sound.fail (by simp)
  | cons segment rest ih =>
    unfold resolvePath
    refine Sound.bind (keeps_evaluateArguments (hr o) hs hscope h bindings _)
      fun arguments t hst ht => ?_
    refine Sound.bind
      (steps_resolveName hr hst.valid (hst.scope_lt hscope) ht _ arguments localOnly)
      fun id u htu hu => ?_
    split
    · exact Sound.pure htu.valid hu
    · refine Sound.get_bind ?_
      split
      · next inner hinner => exact ih htu.valid (htu.valid.nestedScope hinner) hu true
      · exact Sound.fail (by simp)

theorem steps_resolveInline (hs : s.Valid) (hscope : scope.index < s.scopes.size) (h : Steps o s)
    (whole : TypeRef) (body : StructBody) (bindings : Bindings) :
    s.Sound (resolveInline (resolveType levels) scope whole body bindings)
      fun _ t => Steps o t := by
  refine Sound.bind (steps_openLocals hs hscope h bindings _) fun inner t hst ht => ?_
  obtain ⟨ht, hinner⟩ := ht
  have hin : (inner.getD scope).index < t.scopes.size := by
    cases inner with
    | none => exact hst.scope_lt hscope
    | some id => exact hinner id rfl
  refine Sound.bind ((steps_compileStruct hr hst.valid hin ht body bindings).and
    (sound_compileStruct (sound_resolveType levels) hst.valid hin body bindings))
    fun r u htu hu => ?_
  obtain ⟨⟨hu, hstruct⟩, hbuilds⟩ := hu
  exact steps_push htu.valid hu ⟨hbuilds, fun id hid => htu.scope_lt (hinner id hid)⟩ hstruct

theorem steps_resolveStep : (resolveStep (resolveType levels)).Walks := by
  intro o s scope r bindings hs hscope h
  unfold resolveStep
  dsimp only
  split
  · split
    · exact Sound.fail (by simp)
    · exact Sound.fail (by simp)
  · exact steps_resolveInline hr hs hscope h _ _ bindings
  · exact steps_compileArray hr (sound_resolveType levels) hs hscope h _ _ bindings
  · exact steps_resolvePath hr hs hscope h _ bindings false _
  · refine Sound.bind (keeps_evaluateArguments (hr o) hs hscope h bindings _)
      fun arguments t hst ht => ?_
    exact steps_resolveName hr hst.valid (hst.scope_lt hscope) ht _ arguments false

end Names

/-- **Any reference, at any number of levels.** -/
theorem steps_resolveType (levels : ℕ) : (resolveType levels).Walks := by
  induction levels with
  | zero => exact fun _ s _ _ _ _ _ _ => ⟨Grows.refl s, fun _ h => nomatch h⟩
  | succ levels ih => exact steps_resolveStep ih

end Session

end Wireform
