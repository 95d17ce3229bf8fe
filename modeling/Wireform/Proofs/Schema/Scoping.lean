import Wireform.Proofs.Schema.Arguments
import Wireform.Proofs.Schema.Dispatch

/-!
# What the arguments of templates denote

An argument travels as a reference, and is resolved inside the instance: in the namespace of the
template, not in the one around the place where the argument stands. So it denotes what it denotes
where it stands only if its names lead to the same namespaces from both places.

* `SeenAlike`: the names of a reference lead to the same namespaces from two places.
* `argument_denotes`: if they do, an argument denotes the same inside an instance, and references
  whose arguments denote different types share no instance.
* `local_argument`: if they do not, it may be undefined inside, or two types may share an instance.
-/

namespace Wireform

namespace Session

variable {definitions : List (String × Definition)} {options : Options} {resolve : Resolver}
  {s : Session} {q q' : ScopeId} {b b' : Bindings}

/-- Once arguments have been put in, they need not be put in again. -/
theorem resolveStep_substitute {p : String → Bool} {r : TypeRef}
    (hr : (r.substitute b).asks p = true) :
    resolveStep resolve q r b = resolveStep resolve q (r.substitute b) b := by
  unfold resolveStep
  rw [(r.substitute b).substitute_of_asks b hr]

/-- A parameter is resolved as the reference that it stands for. -/
theorem resolveStep_parameter {p : String → Bool} {name : String} {r : TypeRef}
    (hr : r.asks p = true) (hname : b.get? name = some (.type r)) :
    resolveStep resolve q (.parameter name) b = resolveStep resolve q r b := by
  have hparameter : (TypeRef.parameter name).substitute b = r := by
    obtain ⟨kind, nullable⟩ := r
    simp [TypeRef.parameter, TypeRef.ofKind, TypeRef.substitute, hname]
  unfold resolveStep
  rw [hparameter, r.substitute_of_asks b hr]

/-- A reference without parameters denotes the same in two namespaces: the names that it asks for
are plain, and are found in the same namespaces from both. -/
def SeenAlike (s : Session) (q q' : ScopeId) (r : TypeRef) : Prop :=
  ∃ p, s.Together q q' p ∧ r.asks p = true

theorem SeenAlike.resolveType {r : TypeRef} (h : s.SeenAlike q q' r) (levels : ℕ)
    (b b' : Bindings) :
    resolveType levels q r b s = Session.resolveType levels q' r b' s := by
  obtain ⟨p, htogether, hr⟩ := h
  exact scoped_resolveType levels s q q' p b b' r htogether hr

/-- An argument stands for the reference in which the bindings have been put in. -/
theorem resolveType_substituted {p : String → Bool} {r : TypeRef}
    (hr : (r.substitute b).asks p = true) (levels : ℕ) :
    resolveType levels q r b = resolveType levels q (r.substitute b) b := by
  cases levels with
  | zero => rfl
  | succ levels => exact resolveStep_substitute hr

/-- **Inside an instance an argument is resolved as it stands**, if it is seen alike from there. -/
theorem InstanceRun.resolves_of_uses {r : InstanceRun} {levels i : ℕ} {use : Compile TypeId}
    {reference : TypeRef} (hargument : r.taken[i]? = some (.type reference))
    (huse : r.Uses levels i q use) (hseen : s.SeenAlike q q' reference) :
    use s = resolveType levels q' reference b s := by
  cases huse with
  | parameter template parameter last =>
    obtain ⟨p, -, hreference⟩ := id hseen
    have hbound := r.bindings_parameter template parameter last hargument
    rw [← hseen.resolveType levels r.bindings b]
    cases levels with
    | zero => rfl
    | succ levels => exact congrFun (resolveStep_parameter hreference hbound) s
  | substituted argument =>
    obtain ⟨⟩ := Option.some.inj (argument.symm.trans hargument)
    exact hseen.resolveType levels r.bindings b
  | handed template argument =>
    obtain rfl := Option.some.inj (argument.symm.trans hargument)
    exact hseen.resolveType levels [] b

/-- **An argument denotes what it denotes where it stands, if its names are found in the same
places.** A reference with arguments is evaluated by a run, unless an argument cannot be evaluated.
Such a run is refused, or answered by an instance, if no definition has the text of one for its
name. Whatever is done inside the instance with an argument that is a reference has the same outcome
as this reference has where it stands, in every session and namespace from which the reference is
seen alike. So references whose arguments denote different types where they stand are never answered
by one instance, if each is seen alike from inside what answers it. -/
theorem argument_denotes :
    (∀ (start s : Session) (scope : ScopeId) (levels : ℕ) (b : Bindings) (name : String)
      (arguments : List Expr) (nullable : Bool),
      Schema.defineAll (.initial options) definitions = .ok start → Steps start s →
      scope.index < s.scopes.size →
      (∃ stop t, evaluateArguments (resolveType levels) scope b
          (some (TypeRef.substituteExprs b arguments)) s = .error stop t ∧
        resolveType (levels + 1) scope ⟨.named name (some arguments), nullable⟩ b s =
          .error stop t) ∨
      ∃ g : GenericRun definitions options, g.levels = levels ∧ g.scope = scope ∧
        g.bindings = b ∧ g.name = name ∧ g.arguments = arguments ∧ g.localOnly = false ∧
        g.before = s ∧
        resolveType (levels + 1) scope ⟨.named name (some arguments), nullable⟩ b s = g.outcome) ∧
    ∀ g : GenericRun definitions options,
      (g.arguments ≠ [] →
        (∀ scope ∈ g.between.scopes, ∀ key ∈ scope.definitions.keys, '<' ∉ key.toList) →
        (g.Refused ∧ ∃ stop t, g.outcome = .error stop t) ∨ ∃ r, g.Begins r ∨ g.Finds r) ∧
      ∀ r : InstanceRun, g.Begins r ∨ g.Finds r →
        ∀ (i : ℕ) (reference : TypeRef), g.arguments[i]?.bind argumentType? = some reference →
          (∀ (s : Session) (q : ScopeId) (levels : ℕ) (use : Compile TypeId),
            g.Begins r ∨ r.taken[i]? = some (.type (reference.substitute g.bindings)) →
            r.Uses levels i q use →
            s.SeenAlike q g.scope (reference.substitute g.bindings) →
            use s = resolveType levels g.scope reference g.bindings s) ∧
          ∀ (g' : GenericRun definitions options) (reference' : TypeRef) (s t : Session)
            (levels : ℕ),
            Steps r.began g'.between → g'.arguments[i]?.bind argumentType? = some reference' →
            reference'.substitute g'.bindings = reference.substitute g.bindings →
            s.SeenAlike r.inner g.scope (reference.substitute g.bindings) →
            (∀ r', g'.Begins r' ∨ g'.Finds r' →
              s.SeenAlike r'.inner g'.scope (reference'.substitute g'.bindings)) →
            resolveType levels g.scope reference g.bindings s ≠
              resolveType levels g'.scope reference' g'.bindings s →
            g'.outcome ≠ .ok r.slot t := by
  refine ⟨fun start s scope levels b name arguments nullable hdefined hsteps hscope =>
    exists_genericRun hdefined hsteps hscope levels b name arguments nullable,
      fun g => ⟨g.exists_answer, ?_⟩⟩
  intro r _ i reference hargument
  refine ⟨fun s q levels use hanswer huse hseen => ?_,
    fun g' reference' s t levels hsteps hargument' hsame hseen hseen' hne hrun => hne ?_⟩
  · obtain ⟨p, -, hreference⟩ := id hseen
    have htaken : r.taken[i]? = some (.type (reference.substitute g.bindings)) := by
      rcases hanswer with hbegins | htaken
      · exact r.taken_of_arguments (hbegins.arguments ▸ g.operand hargument hreference)
      · exact htaken
    rw [resolveType_substituted hreference]
    exact r.resolves_of_uses htaken huse hseen
  · -- what has the same slot is answered by the same instance
    obtain ⟨p, -, hreference⟩ := id hseen
    have hother := hseen' r (Or.inr (g'.finds_of_outcome hsteps hrun))
    have hreference' : (reference'.substitute g'.bindings).asks p = true := hsame ▸ hreference
    rw [resolveType_substituted hreference, resolveType_substituted hreference',
      ← hseen.resolveType levels [], ← hother.resolveType levels [], hsame]

end Session

namespace Schema

open Session

/-- A struct with one field, whose own namespace gives a type the name `L`. -/
def localName (field type : TypeRef) : Definition :=
  .struct ⟨.object, [.typed (some "a") field], [("L", .synonym type)]⟩

/-- A template applied to `L`. -/
def ofLocal (template : String) : TypeRef := .ofKind (.named template (some [[.type (.named "L")]]))

/-- A template of one field, a type under the name `L`, and two structs that apply the template to
types which they give that name. -/
def shared : List (String × Definition) :=
  [("Box", .template ["T"] (.struct (.object [.typed (some "x") (.parameter "T")]))),
    ("L", .synonym (.named "u8")),
    ("A", localName (ofLocal "Box") (.named "u16")),
    ("B", localName (ofLocal "Box") (.named "u32"))]

/-- Their schema. -/
def sharedSchema : Schema := (compile shared {}).toOption.get (by decide +kernel)

theorem compile_shared : compile shared {} = .ok sharedSchema := eq_ok_get _

/-- A struct that gives a type the name `L` and has a template of its own. -/
def ownTemplate (type : TypeRef) : Definition :=
  .struct ⟨.object, [.typed (some "a") (.named "L")],
    [("L", .synonym type),
      ("W", .template ["T"] (.struct (.object [.typed (some "x") (.parameter "T")])))]⟩

/-- Two of them. -/
def ownTemplates : List (String × Definition) :=
  [("A", ownTemplate (.named "u16")), ("B", ownTemplate (.named "u32"))]

/-- Their schema. -/
def ownSchema : Schema := (compile ownTemplates {}).toOption.get (by decide +kernel)

/-- Resolves a reference to an instance of the template, applied to `L`, in a namespace. -/
def ownInstance (scope : ScopeId) : Compile TypeId :=
  resolveName (resolveType maxLevels) scope "W" (some [.type (.named "L")]) false

/-- The session in which there is an instance of the template of the first struct. -/
def ownFirst : Session := (outcome (ownInstance ⟨1⟩) ownSchema.session).2

/-- A template with the parameter `T` whose body has no definitions of its own. -/
def plainTemplate : Resolved → Bool
  | .template (.user ["T"] body) => body.locals?.isNone
  | _ => false

/-- The reference in a namespace, at some moment. -/
def ownRun {start s : Session} (defined : defineAll (.initial {}) ownTemplates = .ok start)
    (steps : Steps start s) (scope : ScopeId) (scope_lt : scope.index < s.scopes.size) :
    GenericRun ownTemplates {} where
  levels := maxLevels
  scope := scope
  bindings := []
  name := "W"
  arguments := [[.type (.named "L")]]
  operands := [.type (.named "L")]
  localOnly := false
  start := start
  before := s
  between := s
  defined := defined
  steps := steps
  scope_lt := scope_lt
  evaluated := rfl

section OwnRun

variable {start s : Session} {defined : defineAll (.initial {}) ownTemplates = .ok start}
  {steps : Steps start s} {scope : ScopeId} {scope_lt : scope.index < s.scopes.size}
  {r : InstanceRun}

theorem outcome_ownRun : (ownRun defined steps scope scope_lt).outcome = ownInstance scope s := rfl

/-- What begins for it is compiled in the namespace of the template, if the body has no
definitions of its own. -/
theorem inner_ownRun (h : (ownRun defined steps scope scope_lt).Begins r)
    (hfound : s.lookup? scope "W" false = some scope)
    (htemplate : ((outcome (resolveEntry (resolveType maxLevels) scope "W") s).1.toOption.map
      plainTemplate) = some true) :
    r.inner = scope ∧ ∃ body, r.template = .user ["T"] body := by
  have hhome : r.home = scope := Option.some.inj (h.found.symm.trans hfound)
  have hentered : resolveEntry (resolveType maxLevels) scope "W" s =
      .ok (.template r.template) r.before :=
    hhome ▸ h.entered
  rw [outcome, hentered] at htemplate
  have hplain : plainTemplate (.template r.template) = true := Option.some.inj htemplate
  unfold plainTemplate at hplain
  split at hplain
  · next body heq =>
    have htemplate : r.template = .user ["T"] body := Resolved.template.inj heq
    have hbegins := h.begins
    rw [InstanceRun.body, htemplate, instanceBody, BlockBody.locals?,
      Option.isNone_iff_eq_none.1 hplain] at hbegins
    refine ⟨?_, body, htemplate⟩
    rw [InstanceRun.inner, nested_of_beginBlock hbegins, hhome]
    rfl
  · cases hplain

/-- The name `L` leads from a namespace that has it to the same one. -/
theorem seenAlike_ownLocal (hs : s.Valid) (hscope : scope.index < s.scopes.size)
    (hfound : s.lookup? scope "L" false = some scope) : s.SeenAlike scope scope (.named "L") := by
  refine ⟨(· == "L"), ⟨hs, hscope, hscope, fun name hname => ?_, fun name hname => ?_⟩, rfl⟩
  · obtain rfl := eq_of_beq hname
    decide
  · obtain rfl := eq_of_beq hname
    exact ⟨scope, hfound, hfound⟩

end OwnRun

/-- A session in which the schema has been compiled, one in which the template of the first struct
has an instance too, and what is found in them. -/
structure OwnSessions (start s t : Session) : Prop where
  defined : defineAll (.initial {}) ownTemplates = .ok start
  steps : Steps start s
  scopes : s.scopes.size = 3
  later_scopes : t.scopes.size = 3
  plain : ∀ scope ∈ s.scopes, ∀ key ∈ scope.definitions.keys, '<' ∉ key.toList
  later_plain : ∀ scope ∈ t.scopes, ∀ key ∈ scope.definitions.keys, '<' ∉ key.toList
  first : ownInstance ⟨1⟩ s = .ok ⟨s.arena.size⟩ t
  second : ∃ u, ownInstance ⟨2⟩ t = .ok ⟨t.arena.size⟩ u
  template : s.lookup? ⟨1⟩ "W" false = some ⟨1⟩
  later_template : t.lookup? ⟨2⟩ "W" false = some ⟨2⟩
  plainTemplate : (outcome (resolveEntry (resolveType maxLevels) ⟨1⟩ "W") s).1.toOption.map
    plainTemplate = some true
  later_plainTemplate :
    (outcome (resolveEntry (resolveType maxLevels) ⟨2⟩ "W") t).1.toOption.map
    Schema.plainTemplate = some true
  first_local : t.lookup? ⟨1⟩ "L" false = some ⟨1⟩
  second_local : t.lookup? ⟨2⟩ "L" false = some ⟨2⟩
  first_type : ∃ u, resolveType maxLevels ⟨1⟩ (.named "L") [] t = .ok ⟨30⟩ u
  second_type : ∃ u, resolveType maxLevels ⟨2⟩ (.named "L") [] t = .ok ⟨32⟩ u

theorem ownSessions : ∃ start s t, OwnSessions start s t := by
  have hreached : Reached ownTemplates {} ownSchema := .compile (eq_ok_get _)
  obtain ⟨start, hdefined, hsteps⟩ := hreached.arises.steps
  have hfirst : (outcome (ownInstance ⟨1⟩) ownSchema.session).1.toOption =
      some ⟨ownSchema.session.arena.size⟩ := by
    decide +kernel
  have hsecond : (outcome (ownInstance ⟨2⟩) ownFirst).1.toOption = some ⟨ownFirst.arena.size⟩ := by
    decide +kernel
  have htype :
      (outcome (resolveType maxLevels ⟨1⟩ (.named "L") []) ownFirst).1.toOption = some ⟨30⟩ := by
    decide +kernel
  have htype' :
      (outcome (resolveType maxLevels ⟨2⟩ (.named "L") []) ownFirst).1.toOption = some ⟨32⟩ := by
    decide +kernel
  exact ⟨start, ownSchema.session, ownFirst, {
    defined := hdefined
    steps := hsteps
    scopes := by decide +kernel
    later_scopes := by decide +kernel
    plain := by decide +kernel
    later_plain := by decide +kernel
    first := eq_ok_of_outcome hfirst
    second := ⟨_, eq_ok_of_outcome hsecond⟩
    template := by decide +kernel
    later_template := by decide +kernel
    plainTemplate := by decide +kernel
    later_plainTemplate := by decide +kernel
    first_local := by decide +kernel
    second_local := by decide +kernel
    first_type := ⟨_, eq_ok_of_outcome htype⟩
    second_type := ⟨_, eq_ok_of_outcome htype'⟩ }⟩

theorem ownTemplates_denote : ∃ (g g' : GenericRun ownTemplates {}) (r : InstanceRun),
    g.scope = ⟨1⟩ ∧ g'.scope = ⟨2⟩ ∧ g.name = "W" ∧ g'.name = "W" ∧
    g.arguments = [[.type (.named "L")]] ∧ g'.arguments = [[.type (.named "L")]] ∧
    g.Begins r ∧ g.outcome = .ok r.slot g'.before ∧
    resolveType maxLevels r.inner (.parameter "T") r.bindings g'.before =
      resolveType maxLevels ⟨1⟩ (.named "L") [] g'.before ∧
    resolveType maxLevels ⟨1⟩ (.named "L") [] g'.before ≠
      resolveType maxLevels ⟨2⟩ (.named "L") [] g'.before ∧
    ∀ t, g'.outcome ≠ .ok r.slot t := by
  obtain ⟨start, s, t, h⟩ := ownSessions
  let g := ownRun h.defined h.steps ⟨1⟩ (by rw [h.scopes]; decide)
  have hrun : g.outcome = .ok ⟨s.arena.size⟩ t := outcome_ownRun.trans h.first
  let g' := ownRun h.defined (g.steps_outcome hrun) ⟨2⟩ (by rw [h.later_scopes]; decide)
  obtain ⟨u, hrun'⟩ : ∃ u, g'.outcome = .ok ⟨t.arena.size⟩ u := h.second
  obtain ⟨hanswered, hdenotes⟩ := argument_denotes.2 g
  obtain ⟨r, hanswer⟩ : ∃ r, g.Begins r ∨ g.Finds r := by
    rcases hanswered (List.cons_ne_nil _ _) h.plain with ⟨-, stop, v, hfails⟩ | hanswer
    · rw [hrun] at hfails
      cases hfails
    · exact hanswer
  -- both references are answered by new instances
  have hfirst := g.begins_of_new hanswer hrun
  obtain ⟨hinner, body, htemplate⟩ := inner_ownRun hfirst h.template h.plainTemplate
  have hslot : r.slot = ⟨s.arena.size⟩ := r.slot_of_rest (hfirst.outcome.symm.trans hrun) ▸ rfl
  have ht := Steps.valid (g.steps_outcome hrun)
    (Schema.closed_defineAll (closed_initial {}) h.defined).toValid
  have hseen := seenAlike_ownLocal ht (by rw [h.later_scopes]; decide) h.first_local
  obtain ⟨v, htype⟩ := h.first_type
  obtain ⟨v', htype'⟩ := h.second_type
  have hne : resolveType maxLevels ⟨1⟩ (.named "L") [] t ≠
      resolveType maxLevels ⟨2⟩ (.named "L") [] t := by
    rw [htype, htype']
    nofun
  obtain ⟨huses, hapart⟩ := hdenotes r hanswer 0 (.named "L") rfl
  refine ⟨g, g', r, rfl, rfl, rfl, rfl, rfl, rfl, hfirst, hslot ▸ hrun, ?_, hne, fun w => ?_⟩
  · refine huses t r.inner maxLevels _ (Or.inl hfirst) (.parameter htemplate rfl (by decide)) ?_
    rw [hinner]
    exact hseen
  · refine hapart g' (.named "L") t w maxLevels ?_ rfl rfl ?_ ?_ hne
    · exact hfirst.steps _ _ hrun
    · rw [hinner]
      exact hseen
    · intro r' hanswer'
      rw [(inner_ownRun (g'.begins_of_new hanswer' hrun') h.later_template h.later_plainTemplate).1]
      exact seenAlike_ownLocal ht (by rw [h.later_scopes]; decide) h.second_local

/-- **An argument is not resolved where it stands.** A name that a struct gives a type may be
used in its field and as the element of an array in it, but is not defined as an argument; and if
there is a type of this name around the template as well, structs that give different types the
name share an instance. -/
theorem local_argument :
    (∃ schema, compile [("S", localName (.named "L") (.named "u8"))] {} = .ok schema) ∧
    (∃ schema, compile [("S", localName (.array (.named "L") [.number (.ofNat 2)]) (.named "u8"))]
      {} = .ok schema) ∧
    compile [("S", localName (ofLocal "Array") (.named "u8"))] {} =
      .error (.failure (.undefinedType "L")) ∧
    ∃ schema part, compile shared {} = .ok schema ∧
      (schema.session.arena.get? part).map CompiledType.ident = some "Box<L>" ∧
      (schema.get? "A").map (·.type.layout.references) = some [part] ∧
      (schema.get? "B").map (·.type.layout.references) = some [part] := by
  refine ⟨exists_ok_of_isSome (by decide +kernel), exists_ok_of_isSome (by decide +kernel), ?_, ?_⟩
  · rfl
  · have hruns : (sharedSchema.session.arena.get? ⟨31⟩).map CompiledType.ident = some "Box<L>" ∧
        (sharedSchema.get? "A").map (·.type.layout.references) = some [⟨31⟩] ∧
        (sharedSchema.get? "B").map (·.type.layout.references) = some [⟨31⟩] := by decide +kernel
    exact ⟨sharedSchema, ⟨31⟩, compile_shared, hruns⟩

end Schema

end Wireform
