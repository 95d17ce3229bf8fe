import Wireform.Proofs.Session.Layouts

/-!
# References are resolved soundly

A name leads to an entry of a namespace around it; if there is none yet, the
definition is compiled under that name, which is therefore new there. An instance is
compiled under its canonical text, again only if nothing is entered under it. So no
entry is ever overwritten, however blocks, paths and instances are nested.

* `sound_resolveEntry`: what is entered under a name once it is resolved.
* `sound_resolveType`: any reference, at any number of levels.
-/

namespace Wireform.Session

variable {s t : Session} {resolve : Resolver} {home scope : ScopeId}

/-! ### Looking up -/

theorem Valid.lookup (hs : s.Valid) {name : String} {count : ℕ}
    (hscope : scope.index < s.scopes.size) (h : s.lookupWithin? name count scope = some home) :
    home.index < s.scopes.size := by
  induction count generalizing scope with
  | zero => cases h
  | succ count ih =>
    unfold lookupWithin? at h
    split at h
    · obtain rfl := Option.some.inj h
      exact hscope
    · split at h
      · next parent hparent =>
        -- a namespace lies inside an earlier one
        have hlt := (hs.scopes scope.index _ (getElem?_scopes hscope)).parent parent hparent
        exact ih (Nat.lt_trans hlt hscope) h
      · cases h

theorem Valid.lockedScope (hs : s.Valid) {slot : TypeId} (h : s.lockedScope? slot = some scope) :
    scope.index < s.scopes.size := by
  obtain ⟨found, hfound, h⟩ := List.exists_of_findSome?_eq_some h
  obtain ⟨⟨key, entry⟩, hentry, h⟩ := List.exists_of_findSome?_eq_some h
  obtain ⟨i, hi⟩ := List.getElem?_of_mem hfound
  rw [Array.getElem?_toList] at hi
  have hrefers := (hs.scopes i found hi).entries key entry hentry
  cases entry with
  | locked other inner =>
    dsimp only at h
    split at h
    · exact hrefers.2 scope h
    · cases h
  | _ => cases h

theorem Valid.nestedScope (hs : s.Valid) {steps : ℕ} {id : TypeId}
    (h : s.nestedScopeWithin? steps id = some scope) : scope.index < s.scopes.size := by
  induction steps generalizing id with
  | zero => cases h
  | succ steps ih =>
    unfold nestedScopeWithin? at h
    split at h
    · exact hs.lockedScope h
    · next type htype =>
      split at h
      · next found hfound =>
        obtain rfl := Option.some.inj h
        exact (hs.types id type htype).scope _ hfound
      · exact ih h
      · cases h

/-! ### Names -/

/-- A name that stands for this is entered so. -/
def Resolved.Entered (r : Resolved) (t : Session) (home : ScopeId) (name : String) : Prop :=
  match r with
  | .type id => id.index < t.arena.size ∧
    ((t.scope home).entries.get? name = some (.compiled id) ∨
      ∃ inner, (t.scope home).entries.get? name = some (.locked id inner))
  | .template template' => (t.scope home).entries.get? name = some (.deferred template')

theorem admits_of_definition {scope : Scope} {name : String} {definition : Definition} (i : ℕ)
    (h : scope.definitions.get? name = some definition) : scope.Admits i name :=
  Or.inr (Or.inl (Assoc.mem_keys (Assoc.mem_of_get? h)))

/-- The text of an instance with arguments shows that it is one. -/
theorem mem_of_instanceKey? {name key : String} {arguments : List Operand} (hne : arguments ≠ [])
    (h : instanceKey? name arguments = some key) : '<' ∈ key.toList := by
  unfold instanceKey? at h
  split at h
  · exact absurd rfl hne
  · obtain ⟨texts, -, h⟩ := Option.bind_eq_some_iff.1 h
    obtain rfl := Option.some.inj h
    simp

/-- An instance that is not known has a new text. -/
theorem fresh_of_unknown {entries : Assoc Entry} {name : String} {arguments : List Operand}
    (h : (instanceKey? name arguments).bind entries.get? = none) :
    ∀ k ∈ instanceKey? name arguments, k ∉ entries.keys := by
  intro k hk
  rw [Option.mem_def.1 hk] at h
  exact (Assoc.get?_eq_none_iff _ _).1 h

/-- The text of a new instance is admitted: without arguments it would be the name of the template
itself. -/
theorem admits_of_fresh {scope : Scope} {name : String} {template : Template}
    {arguments : List Operand} (i : ℕ)
    (hentered : scope.entries.get? name = some (.deferred template))
    (h : ∀ k ∈ instanceKey? name arguments, k ∉ scope.entries.keys) :
    ∀ k ∈ instanceKey? name arguments, scope.Admits i k := by
  refine fun k hk => Or.inr (Or.inr (mem_of_instanceKey? ?_ hk))
  rintro rfl
  exact h name rfl (Assoc.mem_keys (Assoc.mem_of_get? hentered))

/-- A namespace in which a template is entered under a name that is defined as one. -/
theorem holdsScope_insertTemplate (hs : s.Valid) {before : Scope} {name : String}
    (template : Template) (hb : s.scopes[home.index]? = some before)
    (hadmits : before.Admits home.index name)
    (hdefinition : ∀ definition, before.definitions.get? name = some definition →
      definition.IsTemplate) :
    s.HoldsScope home.index
      { before with entries := before.entries ++ [(name, .deferred template)] } := by
  have hold := hs.scopes home.index before hb
  refine ⟨hold.parent, ?_, ?_, ?_⟩
  · intro key entry he
    rcases List.mem_append.1 he with he | he
    · exact hold.entries key entry he
    · cases List.mem_singleton.1 he
      trivial
  · intro key template' he definition hd
    rcases List.mem_append.1 he with he | he
    · exact hold.templates key template' he definition hd
    · cases List.mem_singleton.1 he
      exact hdefinition definition hd
  · intro key hk
    rw [Assoc.keys, List.map_append, List.mem_append] at hk
    rcases hk with hk | hk
    · exact hold.keys key hk
    · obtain rfl := List.mem_singleton.1 hk
      exact hadmits

/-- Entering a template under a name that is defined as one. -/
theorem sound_insertTemplate (hs : s.Valid) (hhome : home.index < s.scopes.size) {name : String}
    (template : Template) (hnew : name ∉ (s.scope home).entries.keys)
    (hadmits : (s.scope home).Admits home.index name)
    (hdefinition : ∀ definition, (s.scope home).definitions.get? name = some definition →
      definition.IsTemplate) :
    s.Sound (insert home name (.deferred template)) fun _ t =>
      (t.scope home).entries.get? name = some (.deferred template) := by
  obtain ⟨scopes, hinsert, hsize, hscopes⟩ := insert_eq hnew (Entry.deferred template)
  -- no namespace is new
  have hbefore : ∀ {i : ℕ} {after}, scopes[i]? = some after → ∃ before, s.scopes[i]? = some before ∧
      after = if home.index = i
      then { before with entries := before.entries ++ [(name, .deferred template)] }
        else before := by
    intro i after ha
    have hb := Array.getElem?_eq_getElem (hsize ▸ (Array.getElem?_eq_some_iff.1 ha).1)
    exact ⟨_, hb, Option.some.inj (ha.symm.trans (hscopes i _ hb))⟩
  refine ensures_of_eq hinsert ⟨⟨⟨rfl, ⟨#[], by simp⟩, ⟨[(home, name)], rfl, ?_⟩, Or.inl rfl⟩, rfl,
    (Advances.refl hs).filled, ?_, ?_⟩, ?_⟩
  · intro i before hb
    refine ⟨_, hscopes i before hb, ?_⟩
    split
    · next hi =>
      subst hi
      rw [scope_eq hb] at hnew
      refine ⟨[(name, .deferred template)], rfl, fun entry he => ?_, fun key hk => ?_⟩
      · rw [List.mem_singleton.1 he]
        exact List.mem_singleton_self _
      · rwa [(Prod.mk.inj (List.mem_singleton.1 hk)).2]
    · next hi =>
      refine ⟨[], by rw [List.append_nil], List.forall_mem_nil _, fun key hk => ?_⟩
      exact absurd (congrArg ScopeId.index (Prod.mk.inj (List.mem_singleton.1 hk)).1).symm hi
  · intro i after key slot inner ha hl
    obtain ⟨before, hb, rfl⟩ := hbefore ha
    refine ⟨before, hb, ?_⟩
    split at hl
    · exact (List.mem_append.1 hl).resolve_right fun hadded => nomatch List.mem_singleton.1 hadded
    · exact hl
  · refine hs.step (Arena.Extends.refl _) (Nat.le_of_eq hsize.symm) (fun _ _ h => Or.inl h) ?_
      fun _ h => Or.inl h
    intro i after ha
    obtain ⟨before, hb, rfl⟩ := hbefore ha
    split
    · next hi =>
      subst hi
      rw [scope_eq hb] at hadmits hdefinition
      exact Or.inr ((holdsScope_insertTemplate hs template hb hadmits hdefinition).mono
        (Nat.le_refl _)
        (Nat.le_of_eq hsize.symm))
    · exact Or.inl hb
  · have hb := getElem?_scopes hhome
    have hget := scope_eq (s := { s with scopes, journal := (home, name) :: s.journal })
      (hscopes _ _ hb)
    dsimp only
    rw [hget, if_pos rfl, Assoc.get?_append, (Assoc.get?_eq_none_iff _ _).2 hnew]
    simp [Assoc.get?]

/-- The entry under a key refers to what exists. -/
theorem Valid.entry (hs : s.Valid) (hhome : home.index < s.scopes.size)
    {key : String} {entry : Entry} (h : (s.scope home).entries.get? key = some entry) :
    entry.Refers s :=
  (hs.scopes home.index _ (getElem?_scopes hhome)).entries key entry (Assoc.mem_of_get? h)

/-- **A name that is resolved is entered.** -/
theorem sound_resolveEntry (hr : resolve.Sound) (hs : s.Valid) (hhome : home.index < s.scopes.size)
    (name : String) :
    s.Sound (resolveEntry resolve home name) fun r t => r.Entered t home name := by
  unfold resolveEntry
  refine Sound.get_bind ?_
  dsimp only
  split
  · next id h => exact Sound.pure hs ⟨hs.entry hhome h, Or.inl h⟩
  · next slot inner h => exact Sound.pure hs ⟨(hs.entry hhome h).1, Or.inr ⟨inner, h⟩⟩
  · next template h => exact Sound.pure hs h
  · next hnone =>
    -- nothing is entered under the name, so what is compiled now has a new key
    have hnew := (Assoc.get?_eq_none_iff _ _).1 hnone
    split
    · exact Sound.fail (by simp)
    · next parameters body hdefinition =>
      have hadmits := admits_of_definition home.index hdefinition
      refine Sound.bind (sound_insertTemplate hs hhome _ hnew hadmits ?_) fun _ t hst h =>
        Sound.pure hst.valid h
      intro definition hd
      obtain rfl := Option.some.inj (hdefinition.symm.trans hd)
      trivial
    · next definition hdefinition =>
      refine Sound.bind (sound_compileBlock hs hhome ?_ ?_ name _ _ ?_) fun id t hst h =>
        Sound.pure hst.valid ⟨h.1, Or.inl (h.2 name rfl)⟩
      · rintro k ⟨⟩
        exact hnew
      · rintro k ⟨⟩
        exact admits_of_definition home.index hdefinition
      · exact fun t nested ht hhome hnested => sound_compileBody hr ht hhome hnested _ _ _

theorem templateArguments_ordinary {name : String} {template : Template} {arguments : List Operand}
    (error : CompileError) (h : templateArguments name template arguments = .error error)
    (text : String) : error ≠ .violation (.emptySlot text) := by
  cases template with
  | user parameters body =>
    simp only [templateArguments] at h
    split at h
    · cases h
    · cases h
      simp
  | builtin builtin =>
    simp only [templateArguments, Builtin.fillDefaults] at h
    split at h
    · cases h
      simp
    · split at h <;> cases h

/-- **An instance that is known by its text is entered under it.** -/
theorem sound_instantiate (hr : resolve.Sound) (hs : s.Valid) (hhome : home.index < s.scopes.size)
    {name : String} {template : Template}
    (hentered : (s.scope home).entries.get? name = some (.deferred template))
    (arguments : List Operand) :
    s.Sound (instantiate resolve home name template arguments) fun id t => id.index < t.arena.size ∧
      ∀ taken, templateArguments name template arguments = .ok taken →
        ∀ key ∈ instanceKey? name taken, (Resolved.type id).Entered t home key := by
  unfold instantiate
  refine Sound.bind (sound_orFail hs templateArguments_ordinary) fun arguments t hst htaken => ?_
  rw [htaken]
  have ht := hst.valid
  have hentered := hst.toGrows.persists.entry hhome hentered
  have hhome := hst.scope_lt hhome
  refine Sound.get_bind ?_
  have hentry : ∀ entry,
      (instanceKey? name arguments).bind (t.scope home).entries.get? = some entry →
      entry.Refers t := by
    intro entry h
    obtain ⟨key, -, h⟩ := Option.bind_eq_some_iff.1 h
    exact ht.entry hhome h
  have hknown :
      ∀ entry, (instanceKey? name arguments).bind (t.scope home).entries.get? = some entry →
      ∀ key ∈ instanceKey? name arguments, (t.scope home).entries.get? key = some entry := by
    intro entry h key hkey
    rwa [Option.mem_def.1 hkey] at h
  dsimp only
  split
  · next id h =>
    refine Sound.pure ht ⟨hentry _ h, ?_⟩
    rintro _ ⟨⟩ key hkey
    exact ⟨hentry _ h, Or.inl (hknown _ h key hkey)⟩
  · next slot inner h =>
    refine Sound.pure ht ⟨(hentry _ h).1, ?_⟩
    rintro _ ⟨⟩ key hkey
    exact ⟨(hentry _ h).1, Or.inr ⟨inner, hknown _ h key hkey⟩⟩
  · exact Sound.fail (by simp)
  · next hnone =>
    -- nor is anything entered under the text of a new instance
    have hnew := fresh_of_unknown hnone
    have hadmits := admits_of_fresh home.index hentered hnew
    split
    all_goals
      refine (sound_compileBlock ht hhome hnew hadmits _ _ _ ?_).mono fun id u _ h => ⟨h.1, ?_⟩
      · exact fun t nested ht hhome hnested => sound_compileBody hr ht hhome hnested _ _ _
      · rintro _ ⟨⟩ key hkey
        exact ⟨h.1, Or.inl (h.2 key hkey)⟩

theorem sound_resolveInstance (hr : resolve.Sound) (hs : s.Valid)
    (hscope : scope.index < s.scopes.size) (name : String) (arguments : List Operand)
    (localOnly : Bool) :
    s.Sound (resolveInstance resolve scope name arguments localOnly) fun id t =>
      id.index < t.arena.size := by
  unfold resolveInstance
  refine Sound.get_bind ?_
  split
  · exact Sound.fail (by simp)
  · next home hfound =>
    have hhome := hs.lookup hscope hfound
    refine Sound.bind (sound_resolveEntry hr hs hhome name) fun r t hst hentered => ?_
    cases r with
    | type id => exact Sound.fail (by simp)
    | template template =>
      exact (sound_instantiate hr hst.valid (hst.scope_lt hhome) hentered arguments).mono
        fun _ _ _ h => h.1

theorem sound_resolveName (hr : resolve.Sound) (hs : s.Valid) (hscope : scope.index < s.scopes.size)
    (name : String) (arguments : Option (List Operand)) (localOnly : Bool) :
    s.Sound (resolveName resolve scope name arguments localOnly) fun id t =>
      id.index < t.arena.size := by
  cases arguments with
  | some arguments => exact sound_resolveInstance hr hs hscope name arguments localOnly
  | none =>
    simp only [resolveName]
    refine Sound.get_bind ?_
    split
    · exact Sound.fail (by simp)
    · next home hfound =>
      have hhome := hs.lookup hscope hfound
      refine Sound.bind (sound_resolveEntry hr hs hhome name) fun r t hst h => ?_
      split
      · exact Sound.pure hst.valid h.1
      · exact sound_resolveInstance hr hst.valid (hst.scope_lt hscope) name [] localOnly
      · exact Sound.fail (by simp)

/-! ### References -/

theorem sound_resolvePath (hr : resolve.Sound) (hs : s.Valid) (hscope : scope.index < s.scopes.size)
    (whole : TypeRef) (bindings : Bindings) (localOnly : Bool) (segments : List PathSegment) :
    s.Sound (resolvePath resolve whole bindings scope localOnly segments) fun id t =>
      id.index < t.arena.size := by
  induction segments generalizing s scope localOnly with
  | nil => exact Sound.fail (by simp)
  | cons segment rest ih =>
    unfold resolvePath
    refine Sound.bind (sound_evaluateArguments hr hs hscope bindings _) fun arguments t hst _ => ?_
    refine Sound.bind (sound_resolveName hr hst.valid (hst.scope_lt hscope) _ arguments localOnly)
      fun id u htu hid => ?_
    split
    · exact Sound.pure htu.valid hid
    · refine Sound.get_bind ?_
      split
      -- the next segment is looked up inside this type
      · next inner hinner => exact ih htu.valid (htu.valid.nestedScope hinner) true
      · exact Sound.fail (by simp)

theorem sound_resolveInline (hr : resolve.Sound) (hs : s.Valid)
    (hscope : scope.index < s.scopes.size) (whole : TypeRef) (body : StructBody)
    (bindings : Bindings) :
    s.Sound (resolveInline resolve scope whole body bindings) fun id t =>
      id.index < t.arena.size := by
  refine Sound.bind (sound_openLocals hs hscope bindings _) fun inner t hst hinner => ?_
  have hin : (inner.getD scope).index < t.scopes.size := by
    cases inner with
    | none => exact hst.scope_lt hscope
    | some id => exact hinner id rfl
  refine Sound.bind (sound_compileStruct hr hst.valid hin body bindings) fun r u htu hbuilds => ?_
  refine (sound_push htu.valid ⟨hbuilds, fun id hid => ?_⟩).mono
    fun _ t _ h => t.arena.lt_size_of_get? h
  exact htu.scope_lt (hinner id hid)

theorem sound_resolveStep (hr : resolve.Sound) : (resolveStep resolve).Sound := by
  intro s scope r bindings hs hscope
  unfold resolveStep
  dsimp only
  split
  · split
    · exact Sound.fail (by simp)
    · exact Sound.fail (by simp)
  · exact sound_resolveInline hr hs hscope _ _ bindings
  · exact sound_compileArray hr hs hscope _ _ bindings
  · exact sound_resolvePath hr hs hscope _ bindings false _
  · refine Sound.bind (sound_evaluateArguments hr hs hscope bindings _) fun arguments t hst _ => ?_
    exact sound_resolveName hr hst.valid (hst.scope_lt hscope) _ arguments false

/-- **Any reference, at any number of levels.** -/
theorem sound_resolveType (levels : ℕ) : (resolveType levels).Sound := by
  induction levels with
  | zero => exact fun s _ _ _ _ _ => ⟨Grows.refl s, fun _ h => nomatch h⟩
  | succ levels ih => exact sound_resolveStep ih

end Wireform.Session
