import Wireform.Proofs.Session.TwinBlocks

/-!
# Resolving in twins

A name that is looked up is found in the same namespace of both sessions. If that is a marked one,
its definitions are compiled there under the same bindings, wherever the name stands. If it is not,
the name does not stand at a marked place, so neither the definition found nor the arguments it is
applied to ask for what `b` replaces; an instance has arguments for the parameters of its template,
whatever their names are.

* `tandem_resolveStep`: references in which the same has been put in.
* `inTandem_resolveType`: any reference, at any number of levels.
* `Valid.twins`: any session is its own twin.
-/

namespace Wireform.Session

variable {b : Bindings} {own : List String} {m m' : Marks} {s s' t t' : Session} {q home : ScopeId}
  {marked : Bool} {x y : Bindings} {resolve : Resolver} (hr : resolve.InTandem b)

/-! ### Names -/

/-- What is found in a marked namespace is marked, and in any other one it avoids the parameters. -/
def Resolved.Stands (b : Bindings) (own : List String) (isMarked : Prop)
    (m : Marks) : Resolved → Prop
  | .type id => isMarked → m.types id
  | .template found => ¬isMarked → found.avoids b own = true

/-- How two computations stand in a namespace. -/
theorem exists_stance (home : ScopeId) (hsame : m.scopes home → y = x)
    (hbeyond : ¬m.scopes home → TypeRef.Beyond b own x y) :
    ∃ marked, Stance b own m home marked x y ∧ (m.scopes home ↔ marked = true) := by
  by_cases hhome : m.scopes home
  · exact ⟨true, hsame hhome ▸ .marked hhome, fun _ => rfl, fun _ => hhome⟩
  · exact ⟨false, .parted (hbeyond hhome), fun h => absurd h hhome, nofun⟩

theorem avoids_of_templateArguments {name : String} {template : Template}
    {arguments taken : List Operand} (h : templateArguments name template arguments = .ok taken)
    (harguments : ∀ operand ∈ arguments, operand.avoids b = true) :
    ∀ operand ∈ taken, operand.avoids b = true := by
  rcases templateArguments_eq h with rfl | ⟨-, rfl⟩
  · exact harguments
  · exact List.forall_mem_singleton.2 rfl

/-- Each parameter of a template has an argument. -/
theorem keys_of_templateArguments {name : String} {parameters : List String} {body : Definition}
    {arguments taken : List Operand}
    (h : templateArguments name (.user parameters body) arguments = .ok taken) :
    Assoc.keys (parameters.zip taken) = parameters := by
  simp only [templateArguments] at h
  split at h
  · next hlength =>
    obtain rfl := Except.ok.inj h
    exact List.map_fst_zip hlength.le
  · cases h

include hr

theorem tandem_resolveEntry (h : Twins b m s t) (hlt : home.index < s.scopes.size) (name : String) :
    Tandem b m s t (resolveEntry resolve home name) (resolveEntry resolve home name)
      fun m' r => r.Stands b (m.own home) (m.scopes home) m' := by
  unfold resolveEntry
  refine Tandem.get_bind ?_
  dsimp only
  rw [h.entries, h.definitions]
  cases hentry : (s.scope home).entries.get? name with
  | some entry =>
    have hmem := Assoc.mem_of_get? hentry
    cases entry with
    | compiled id => exact Tandem.pure h fun hhome => (h.shared home hhome).compiled name id hmem
    | locked slot inner =>
      exact Tandem.pure h fun hhome => (h.shared home hhome).locked name slot inner hmem
    | deferred template =>
      exact Tandem.pure h fun hhome => (h.parted home hhome).templates name template hmem
  | none =>
    dsimp only
    cases hget : (s.scope home).definitions.get? name with
    | none => exact Tandem.fail _ _
    | some definition =>
      have havoids : ¬m.scopes home →
          definitionAvoids b (m.own home) definition = true := fun hhome =>
        definitionAvoids_of_mem (h.parted home hhome).definitions (Assoc.mem_of_get? hget)
      obtain ⟨marked, hst, hplace⟩ :=
        exists_stance home (fun hhome => (h.shared home hhome).bindings)
        fun hhome => (h.parted home hhome).bindings
      have hblock : Tandem b m s t
          (do return Resolved.type (← compileBlock resolve home (some name) name
                (.definition definition) (s.scope home).bindings))
          (do return Resolved.type (← compileBlock resolve home (some name) name
                (.definition definition) (t.scope home).bindings))
          fun m' r => r.Stands b (m.own home) (m.scopes home) m' := by
        refine Tandem.bind (tandem_compileBlock hr h hst hlt hplace (some name) name
          fun hparted => havoids fun hhome => ?_) fun m' id s' t' _ h' hid => ?_
        · exact absurd (hplace.1 hhome) (hparted ▸ nofun)
        · exact Tandem.pure h' fun hhome => hid (hplace.1 hhome)
      cases definition with
      | template parameters body =>
        have hleads : m.Leads b s home (.deferred (.user parameters body)) := {
          slot := nofun
          compiled := nofun
          locked := nofun
          inner := nofun
          template := fun hhome template heq => Entry.deferred.inj heq ▸ havoids hhome }
        exact Tandem.bind (tandem_insert h hleads name) fun _ _ _ _ _ h' _ => Tandem.pure h' havoids
      | struct | enum | synonym => exact hblock

theorem tandem_instantiate (h : Twins b m s t) (hlt : home.index < s.scopes.size) (name : String)
    {template : Template} (htemplate : ¬m.scopes home → template.avoids b (m.own home) = true)
    {arguments : List Operand}
    (harguments : ¬m.scopes home → ∀ operand ∈ arguments, operand.avoids b = true) :
    Tandem b m s t (instantiate resolve home name template arguments)
      (instantiate resolve home name template arguments)
        fun m' id => m.scopes home → m'.types id := by
  unfold instantiate
  refine Tandem.bind (p := fun _ taken => templateArguments name template arguments = .ok taken)
    (Tandem.orFail h fun _ htaken => htaken) fun m₁ taken s₁ t₁ hlater₁ h₁ hok => ?_
  have htaken : ¬m.scopes home → ∀ operand ∈ taken, operand.avoids b = true :=
    fun hhome => avoids_of_templateArguments hok (harguments hhome)
  rw [← hlater₁.scopes home hlt] at htemplate htaken ⊢
  rw [← hlater₁.own home hlt] at htemplate
  have hlt₁ := hlt.trans_le hlater₁.scopes_le
  refine Tandem.get_bind ?_
  dsimp only
  rw [h₁.entries]
  cases hentry : (instanceKey? name taken).bind (s₁.scope home).entries.get? with
  | some entry =>
    obtain ⟨key, -, hentry⟩ := Option.bind_eq_some_iff.1 hentry
    have hmem := Assoc.mem_of_get? hentry
    cases entry with
    | compiled id => exact Tandem.pure h₁ fun hhome => (h₁.shared home hhome).compiled key id hmem
    | locked slot inner =>
      exact Tandem.pure h₁ fun hhome => (h₁.shared home hhome).locked key slot inner hmem
    | deferred => exact Tandem.fail _ _
  | none =>
    dsimp only
    cases template with
    | builtin builtin =>
      obtain ⟨marked, hst, hplace⟩ :=
        exists_stance (m := m₁) (x := []) (y := []) home (fun _ => rfl)
        fun _ => .nil b
      refine Tandem.mono
        (tandem_compileBlock hr h₁ hst hlt₁ hplace _ _ fun hparted => htaken fun hhome => ?_)
        fun m' id hid hhome => hid (hplace.1 hhome)
      exact absurd (hplace.1 hhome) (hparted ▸ nofun)
    | user parameters body =>
      -- in the instance the parameters are the template's own
      have hbeyond : ¬m₁.scopes home → TypeRef.Beyond b (parameters ++ m₁.own home)
          (Assoc.putAll (s₁.scope home).bindings (parameters.zip taken))
          (Assoc.putAll (t₁.scope home).bindings (parameters.zip taken)) := by
        intro hhome
        have hmore : ∀ parameter operand, (parameter, operand) ∈ parameters.zip taken →
            operand.avoids b = true :=
          fun _ operand hmem => htaken hhome operand (List.of_mem_zip hmem).2
        have hboth := (h₁.parted home hhome).bindings.putAll hmore
        rwa [keys_of_templateArguments hok] at hboth
      obtain ⟨marked, hst, hplace⟩ :=
        exists_stance home (fun hhome => by rw [(h₁.shared home hhome).bindings]) hbeyond
      refine Tandem.mono
        (tandem_compileBlock hr h₁ hst hlt₁ hplace _ _ fun hparted => htemplate fun hhome => ?_)
        fun m' id hid hhome => hid (hplace.1 hhome)
      exact absurd (hplace.1 hhome) (hparted ▸ nofun)

/-- A name is found at a marked place if it stands at one. -/
theorem tandem_resolveInstance (h : Twins b m s t) (hq : marked = true → m.scopes q) (name : String)
    {arguments : List Operand}
    (harguments : marked = false → ∀ operand ∈ arguments, operand.avoids b = true)
    (localOnly : Bool) :
    Tandem b m s t (resolveInstance resolve q name arguments localOnly)
      (resolveInstance resolve q name arguments localOnly)
        fun m' id => marked = true → m'.types id := by
  unfold resolveInstance
  refine Tandem.get_bind ?_
  rw [h.lookup?]
  cases hfound : s.lookup? q name localOnly with
  | none => exact Tandem.fail _ _
  | some home =>
    have hlt := lt_of_lookup? hfound
    have hmarked : marked = true → m.scopes home := fun hmark => h.lookup?_marked (hq hmark) hfound
    have hparted : ¬m.scopes home → marked = false := fun hhome =>
      Bool.eq_false_iff.2 fun hmark => hhome (hmarked hmark)
    refine Tandem.bind (tandem_resolveEntry hr h hlt name) fun m' r s' t' hlater h' hr' => ?_
    cases r with
    | type => exact Tandem.fail _ _
    | template template =>
      have hhome := hlater.scopes home hlt
      refine Tandem.mono (tandem_instantiate hr h' (hlt.trans_le hlater.scopes_le) name
        (fun hno => hlater.own home hlt ▸ hr' fun hyes => hno (hhome.2 hyes))
        fun hno => harguments (hparted fun hyes => hno (hhome.2 hyes))) fun m'' id hid hmark => ?_
      exact hid (hhome.2 (hmarked hmark))

theorem tandem_resolveName (h : Twins b m s t) (hq : marked = true → m.scopes q) (name : String)
    {arguments : Option (List Operand)}
    (harguments : marked = false → ∀ list, arguments = some list →
      ∀ operand ∈ list, operand.avoids b = true)
    (localOnly : Bool) :
    Tandem b m s t (resolveName resolve q name arguments localOnly)
      (resolveName resolve q name arguments localOnly)
        fun m' id => marked = true → m'.types id := by
  cases arguments with
  | some arguments =>
    exact tandem_resolveInstance hr h hq name
      (fun hparted => harguments hparted arguments rfl) localOnly
  | none =>
    simp only [resolveName]
    refine Tandem.get_bind ?_
    rw [h.lookup?]
    cases hfound : s.lookup? q name localOnly with
    | none => exact Tandem.fail _ _
    | some home =>
      have hlt := lt_of_lookup? hfound
      refine Tandem.bind (tandem_resolveEntry hr h hlt name) fun m' r s' t' hlater h' hr' => ?_
      cases r with
      | type id => exact Tandem.pure h' fun hmark => hr' (h.lookup?_marked (hq hmark) hfound)
      | template template =>
        cases template with
        | user => exact Tandem.fail _ _
        | builtin =>
          exact tandem_resolveInstance hr h' (fun hmark => hlater.markedScope h (hq hmark)) name
            (fun _ _ hmem => absurd hmem List.not_mem_nil) localOnly

/-! ### References -/

theorem tandem_resolvePath (h : Twins b m s t) (hst : Stance b own m q marked x y) (whole : TypeRef)
    (localOnly : Bool) {segments : List PathSegment}
    (hsegments : marked = false → segmentsAvoid b true own segments = true) :
    Tandem b m s t (resolvePath resolve whole x q localOnly segments)
      (resolvePath resolve whole y q localOnly segments)
        fun m' id => marked = true → m'.types id := by
  induction segments generalizing m s t q localOnly with
  | nil => exact Tandem.fail _ _
  | cons segment rest ih =>
    obtain ⟨name, arguments⟩ := segment
    have hboth : marked = false → argumentsAvoid b true own arguments = true ∧
        segmentsAvoid b true own rest = true := by
      intro hparted
      have hall := hsegments hparted
      rwa [segmentsAvoid, Bool.and_eq_true] at hall
    unfold resolvePath
    refine Tandem.bind (tandem_evaluateArguments hr h hst fun hparted => (hboth hparted).1)
      fun m₁ operands s₁ t₁ hlater₁ h₁ hoperands => ?_
    have hst₁ := hst.later hlater₁ h
    refine Tandem.bind (tandem_resolveName hr h₁ hst₁.place name hoperands localOnly)
      fun m₂ id s₂ t₂ hlater₂ h₂ hid => ?_
    cases rest with
    | nil => exact Tandem.pure h₂ hid
    | cons next rest =>
      refine Tandem.get_bind ?_
      rw [h₂.nestedScope?]
      cases hinner : s₂.nestedScope? id with
      | none => exact Tandem.fail _ _
      | some inner =>
        -- the namespace of a marked type is marked
        have hst₂ :=
          (hst₁.later hlater₂ h₁).move inner fun hmark => h₂.nestedScope?_marked (hid hmark) hinner
        exact ih h₂ hst₂ true fun hparted => (hboth hparted).2

theorem tandem_resolveInline (h : Twins b m s t) (hst : Stance b own m q marked x y)
    (whole : TypeRef) {body : StructBody}
    (hbody : marked = false → bodyAvoids b true own own body = true) :
    Tandem b m s t (resolveInline resolve q whole body x) (resolveInline resolve q whole body y)
      fun m' id => marked = true → m'.types id := by
  unfold resolveInline
  have hlocals : marked = false →
      ∀ definitions, (Definition.struct body).locals? = some definitions →
      definitionsAvoid b own definitions = true := fun hparted _ =>
    Definition.locals_avoid (show definitionAvoids b own (.struct body) = true from hbody hparted)
  refine Tandem.bind (tandem_openLocals h hst hlocals) fun m₁ inner s₁ t₁ hlater₁ h₁ hinner => ?_
  have hst₁ := (hst.later hlater₁ h).move (inner.getD q) fun hmark => by
    cases inner with
    | none => exact hlater₁.markedScope h (hst.place hmark)
    | some c => exact hinner hmark c rfl
  refine Tandem.bind (tandem_compileStruct hr h₁ hst₁ hbody) fun m₂ r s₂ t₂ hlater₂ h₂ hlayout => ?_
  exact tandem_push h₂ marked fun hmark =>
    ⟨fun c hc => hlater₂.markedScope h₁ (hinner hmark c hc),
      fun target htarget => absurd htarget (hlayout target)⟩

/-- Two references that become the same are resolved in tandem. -/
theorem tandem_resolveStep (h : Twins b m s t) (hst : Stance b own m q marked x y) {r r' : TypeRef}
    (hsame : r'.substitute y = r.substitute x)
    (havoids : marked = false → (r.substitute x).avoidsIn b true own own = true) :
    Tandem b m s t (resolveStep resolve q r x) (resolveStep resolve q r' y)
      fun m' id => marked = true → m'.types id := by
  unfold resolveStep
  dsimp only
  rw [hsame]
  generalize r.substitute x = whole at havoids ⊢
  obtain ⟨kind, nullable⟩ := whole
  cases kind with
  | parameter name =>
    dsimp only
    split <;> split <;> exact Tandem.fail _ _
  | inline body => exact tandem_resolveInline hr h hst _ havoids
  | array element size =>
    have hboth : marked = false → element.avoidsIn b true own own = true ∧
        exprAvoids b true own size = true := by
      intro hparted
      have hall := havoids hparted
      rwa [TypeRef.avoidsIn, Bool.and_eq_true] at hall
    exact tandem_compileArray hr h hst (fun hparted => (hboth hparted).1)
      fun hparted => (hboth hparted).2
  | path segments => exact tandem_resolvePath hr h hst _ false havoids
  | named name arguments =>
    refine Tandem.bind (tandem_evaluateArguments hr h hst havoids)
      fun m₁ operands s₁ t₁ hlater₁ h₁ hoperands => ?_
    exact tandem_resolveName hr h₁ (hst.later hlater₁ h).place name hoperands false

omit hr

/-- **Every reference is resolved in tandem**, at any number of levels. -/
theorem inTandem_resolveType (b : Bindings) (levels : ℕ) : (resolveType levels).InTandem b := by
  induction levels with
  | zero => exact fun _ _ _ => trivial
  | succ levels ih =>
    intro own marked m s t q r x y h hst havoids
    have hboth := hst.substitute havoids
    exact tandem_resolveStep ih h hst hboth.1 hboth.2

/-- Everything that is there. -/
def Marks.all (s : Session) : Marks :=
  ⟨fun q => q.index < s.scopes.size, fun id => id.index < s.arena.size, fun _ => []⟩

theorem Valid.holdsScope (hs : s.Valid) (q : ScopeId) : s.HoldsScope q.index (s.scope q) := by
  by_cases hq : q.index < s.scopes.size
  · exact hs.scopes q.index _ (getElem?_scopes hq)
  · rw [scope_of_size_le (Nat.le_of_not_lt hq)]
    exact ⟨nofun, nofun, nofun, nofun⟩

/-- **A session is its own twin**, in which everything is marked. -/
theorem Valid.twins (hs : s.Valid) (b : Bindings) : Twins b (.all s) s s where
  arena := rfl
  options := rfl
  depth := rfl
  emptyTuple := rfl
  size := rfl
  scope := fun _ => rfl
  slots := fun q key id inner hentry => ((hs.holdsScope q).entries key _ hentry).1
  shared := fun q hq => {
    lt := hq
    bindings := rfl
    parent := fun p hp => ((hs.holdsScope q).parent p hp).trans hq
    compiled := fun key id hentry => (hs.holdsScope q).entries key _ hentry
    locked := fun key id inner hentry => ((hs.holdsScope q).entries key _ hentry).1 }
  parted := by
    intro q hq
    have hempty := scope_of_size_le (Nat.le_of_not_lt hq)
    constructor
    · rw [hempty]
      exact .nil b
    · rw [hempty]
      rfl
    · rw [hempty]
      exact nofun
  types := fun _ hid => hid
  filled := fun id type _ htype => {
    scope := (hs.types id type htype).scope
    synonym := fun target htarget =>
      (hs.types id type htype).builds.references target (htarget ▸ List.mem_singleton_self target) }
  inner := fun q key id c _ hentry => ((hs.holdsScope q).entries key _ hentry).2 c rfl

end Wireform.Session
