import Wireform.Proofs.Schema.Reached
import Wireform.Proofs.Session.Instances
import Wireform.Proofs.Session.Scoping

/-!
# References to instances

A reference to an instance is evaluated in the namespace where it stands: first its arguments,
each of which leaves an operand, and then the name of the template. What answers is an instance,
in the namespace of the template: a new one, whose parameters are bound to these operands, or the
one that has the same text.

* `GenericRun`: a reference to an instance whose arguments have been evaluated.
* `InstanceRun.Uses`: what is done with an argument inside an instance.
* `GenericRun.exists_answer`: an instance answers it, unless a definition has the
  text of one for its name.
* `GenericRun.finds_of_outcome`: what has the same slot is answered by the same instance.
-/

namespace Wireform.Session

open Schema (defineAll)

variable {definitions : List (String × Definition)} {options : Options} {s t u v : Session}
  {scope home : ScopeId} {name : String} {operands : List Operand} {slot : TypeId} {levels : ℕ}
  {bindings : Bindings}

/-- A reference to an instance, as it is evaluated in a namespace: bindings are put in its
arguments, these are evaluated, and the name is applied to what they leave. This may happen at any
moment after some definitions have been made. -/
structure GenericRun (definitions : List (String × Definition)) (options : Options) where
  levels : ℕ
  /-- The namespace in which it stands. -/
  scope : ScopeId
  bindings : Bindings
  name : String
  /-- The arguments as they are written. -/
  arguments : List Expr
  operands : List Operand
  /-- Whether the name follows a point. -/
  localOnly : Bool
  start : Session
  before : Session
  /-- The session in which the arguments have been evaluated. -/
  between : Session
  defined : defineAll (.initial options) definitions = .ok start
  steps : Steps start before
  scope_lt : scope.index < before.scopes.size
  evaluated : evaluateArguments (resolveType levels) scope bindings
    (some (TypeRef.substituteExprs bindings arguments)) before = .ok (some operands) between

/-- The reference that an argument is: a type, or a parameter. -/
def argumentType? : Expr → Option TypeRef
  | [.type r] => some r
  | [.parameter name] => some (.parameter name)
  | _ => none

/-- What resolves an argument inside an instance: a reference in some namespace to the parameter
that stands for it, or to what has been put in its place, or, if the template is builtin, what asks
for the argument itself. -/
inductive InstanceRun.Uses (r : InstanceRun) (levels i : ℕ) : ScopeId → Compile TypeId → Prop where
  | parameter {scope : ScopeId} {parameters : List String} {body : Definition} {name : String}
      (template : r.template = .user parameters body) (parameter : parameters[i]? = some name)
      (last : name ∉ parameters.drop (i + 1)) :
      Uses r levels i scope (resolveType levels scope (.parameter name) r.bindings)
  | substituted {scope : ScopeId} {reference : TypeRef}
      (argument : r.taken[i]? = some (.type reference)) :
      Uses r levels i scope (resolveType levels scope reference r.bindings)
  | handed {builtin : Builtin} {operand : Operand} (template : r.template = .builtin builtin)
      (argument : r.taken[i]? = some operand) :
      Uses r levels i r.home (typeArgument (resolveType levels) r.home builtin operand)

namespace GenericRun

variable (g : GenericRun definitions options) (r : InstanceRun)

/-- What becomes of the reference. -/
def outcome : EStateM.Result (Stop CompileError) Session TypeId :=
  resolveName (resolveType g.levels) g.scope g.name (some g.operands) g.localOnly g.between

/-- The reference fails before its arguments are used. -/
inductive Refused : Prop where
  /-- Nothing has the name. -/
  | unknown (unknown : g.between.lookup? g.scope g.name g.localOnly = none)
  /-- What has the name is no template, or cannot be compiled itself. -/
  | noTemplate {home : ScopeId} (found : g.between.lookup? g.scope g.name g.localOnly = some home)
      (noTemplate : ∀ template t, resolveEntry (resolveType g.levels) home g.name g.between ≠
        .ok (.template template) t)
  /-- The template does not take so many arguments. -/
  | arity {template : Template} {error : CompileError}
      (wrong : templateArguments g.name template g.operands = .error error)
  /-- Too many blocks are in progress. -/
  | depth {home : ScopeId} {template : Template} {t : Session}
      (entered : resolveEntry (resolveType g.levels) home g.name g.between =
        .ok (.template template) t)
      (full : t.options.maxDepth ≤ t.depth)
  /-- A template has the text of the instance for its name. -/
  | text {home : ScopeId} {template other : Template} {taken : List Operand} {key : String}
      {t : Session}
      (entered : resolveEntry (resolveType g.levels) home g.name g.between =
        .ok (.template template) t)
      (takes : templateArguments g.name template g.operands = .ok taken)
      (key_eq : instanceKey? g.name taken = some key)
      (known : (t.scope home).entries.get? key = some (.deferred other))

/-- An instance of the template that has the name begins for the operands, and what becomes of the
reference is what becomes of its body. -/
structure Begins : Prop where
  found : g.between.lookup? g.scope g.name g.localOnly = some r.home
  entered : resolveEntry (resolveType g.levels) r.home g.name g.between =
    .ok (.template r.template) r.before
  name : r.name = g.name
  arguments : r.arguments = g.operands
  begins : beginBlock r.home (instanceKey? r.name r.taken) r.body.locals? r.bindings r.before =
    .ok (r.slot, r.nested) r.began
  outcome : g.outcome = r.rest g.levels r.began
  steps : ∀ slot t, g.outcome = .ok slot t → Steps r.began t

/-- An instance is there already under the text of the reference, and answers it. -/
structure Finds : Prop where
  found : g.between.lookup? g.scope g.name g.localOnly = some r.home
  text : ∃ template taken key, templateArguments g.name template g.operands = .ok taken ∧
    instanceKey? g.name taken = some key ∧ instanceKey? r.name r.taken = some key
  steps : Steps r.began g.between
  outcome : ∃ t, g.outcome = .ok r.slot t

end GenericRun

/-! ### How a name is applied -/

/-- To look up a template compiles nothing. -/
theorem slotAt?_resolveEntry {template : Template}
    (hrun : resolveEntry (resolveType levels) home name s = .ok (.template template) t) :
    t.arena = s.arena ∧ ∀ other key, t.slotAt? other key = s.slotAt? other key := by
  simp only [resolveEntry, get_bind] at hrun
  cases hentry : (s.scope home).entries.get? name with
  | some entry =>
    rw [hentry] at hrun
    cases entry with
    | compiled id => cases hrun
    | locked slot inner => cases hrun
    | deferred template =>
      obtain ⟨-, rfl⟩ := EStateM.Result.ok.inj hrun
      exact ⟨rfl, fun _ _ => rfl⟩
  | none =>
    rw [hentry] at hrun
    have hnew := (Assoc.get?_eq_none_iff _ _).1 hentry
    cases hdefinition : (s.scope home).definitions.get? name with
    | none =>
      rw [hdefinition] at hrun
      cases hrun
    | some definition =>
      rw [hdefinition] at hrun
      cases definition with
      | template parameters body =>
        obtain ⟨_, u, hinsert, hrun⟩ := exists_of_bind_ok hrun
        obtain ⟨-, rfl⟩ := EStateM.Result.ok.inj hrun
        exact slotAt?_insertTemplate hnew hinsert
      | _ =>
        obtain ⟨id, u, -, hrun⟩ := exists_of_bind_ok hrun
        cases hrun

/-! ### What arguments leave -/

/-- Each element has been worked off. -/
theorem exists_of_mapM {α β : Type} {f : α → Compile β} {xs : List α} {ys : List β}
    (h : xs.mapM f s = .ok ys t) :
    List.Forall₂ (fun x y => ∃ u v, f x u = .ok y v) xs ys := by
  induction xs generalizing s t ys with
  | nil =>
    obtain ⟨rfl, -⟩ := EStateM.Result.ok.inj h
    exact .nil
  | cons x xs ih =>
    rw [List.mapM_cons] at h
    obtain ⟨y, u, hx, h⟩ := exists_of_bind_ok h
    obtain ⟨ys', v, hxs, h⟩ := exists_of_bind_ok h
    obtain ⟨rfl, rfl⟩ := EStateM.Result.ok.inj h
    exact .cons ⟨s, u, hx⟩ (ih hxs)

/-- A reference without parameters that stands for a parameter is what the parameter is bound to. -/
theorem get?_of_asks {p : String → Bool}
    (h : ((TypeRef.parameter name).substitute bindings).asks p = true) :
    bindings.get? name = some (.type ((TypeRef.parameter name).substitute bindings)) := by
  cases hbound : bindings.get? name with
  | none => simp [TypeRef.parameter, TypeRef.ofKind, TypeRef.substitute, TypeRef.asks, hbound] at h
  | some operand =>
    cases operand with
    | constant value =>
      simp [TypeRef.parameter, TypeRef.ofKind, TypeRef.substitute, TypeRef.asks, hbound] at h
    | type r =>
      obtain ⟨kind, nullable⟩ := r
      simp [TypeRef.parameter, TypeRef.ofKind, TypeRef.substitute, hbound]

/-- An argument that is a reference leaves this reference, in which the bindings have been put
in. -/
theorem evaluate_argumentType {resolve : Resolver} {p : String → Bool} {expr : Expr} {r : TypeRef}
    (hexpr : argumentType? expr = some r) (hr : (r.substitute bindings).asks p = true) :
    evaluate resolve scope bindings (TypeRef.substituteExpr bindings expr) s =
      .ok (.type (r.substitute bindings)) s := by
  have hleaves : evaluate resolve scope bindings [.type (r.substitute bindings)] s =
      .ok (.type ((r.substitute bindings).substitute bindings)) s := rfl
  rw [(r.substitute bindings).substitute_of_asks bindings hr] at hleaves
  unfold argumentType? at hexpr
  split at hexpr
  · obtain rfl := Option.some.inj hexpr
    exact hleaves
  · next name =>
    obtain rfl := Option.some.inj hexpr
    have htoken : TypeRef.substituteExpr bindings [.parameter name] =
        [.type ((TypeRef.parameter name).substitute bindings)] := by
      simp only [TypeRef.substituteExpr, TypeRef.substituteToken, get?_of_asks hr, Operand.token]
    rw [htoken]
    exact hleaves
  · cases hexpr

theorem substituteExprs_eq_map (exprs : List Expr) :
    TypeRef.substituteExprs bindings exprs = exprs.map (TypeRef.substituteExpr bindings) := by
  induction exprs with
  | nil => rfl
  | cons expr rest ih => rw [TypeRef.substituteExprs, ih, List.map_cons]

namespace GenericRun

variable (g : GenericRun definitions options)

/-! ### What happens while a reference is evaluated -/

theorem valid : g.before.Valid :=
  Steps.valid g.steps (Schema.closed_defineAll (closed_initial options) g.defined).toValid

theorem advances : Advances g.before g.between :=
  ((sound_evaluateArguments (sound_resolveType g.levels) g.valid g.scope_lt g.bindings _).of_ok
    g.evaluated).1

theorem scope_lt_between : g.scope.index < g.between.scopes.size := g.advances.scope_lt g.scope_lt

theorem steps_between : Steps g.start g.between :=
  ((keeps_evaluateArguments (steps_resolveType g.levels g.start) g.valid g.scope_lt g.steps
    g.bindings _).of_ok
    g.evaluated).2

theorem steps_outcome (hrun : g.outcome = .ok slot t) : Steps g.start t :=
  ((steps_resolveName (steps_resolveType g.levels) g.advances.valid g.scope_lt_between
    g.steps_between g.name
    (some g.operands) g.localOnly).of_ok hrun).2

/-- Each argument leaves an operand. -/
theorem forall₂_operands :
    List.Forall₂ (fun expr operand => ∃ u v, evaluate (resolveType g.levels) g.scope g.bindings
    (TypeRef.substituteExpr g.bindings expr) u = .ok operand v) g.arguments g.operands := by
  obtain ⟨operands, t, hmapM, hpure⟩ := exists_of_bind_ok g.evaluated
  obtain ⟨hsome, -⟩ := EStateM.Result.ok.inj hpure
  obtain rfl := Option.some.inj hsome
  rw [substituteExprs_eq_map] at hmapM
  exact List.forall₂_map_left_iff.1 (exists_of_mapM hmapM)

/-- The operand that an argument leaves. -/
theorem operand {p : String → Bool} {i : ℕ} {r : TypeRef}
    (hargument : g.arguments[i]?.bind argumentType? = some r)
    (hr : (r.substitute g.bindings).asks p = true) :
    g.operands[i]? = some (.type (r.substitute g.bindings)) := by
  obtain ⟨expr, hexpr, hargument⟩ := Option.bind_eq_some_iff.1 hargument
  obtain ⟨hlength, hall⟩ := List.forall₂_iff_get.1 g.forall₂_operands
  obtain ⟨hi, rfl⟩ := List.getElem?_eq_some_iff.1 hexpr
  obtain ⟨u, v, hrun⟩ := hall i hi (hlength ▸ hi)
  obtain ⟨hsame, -⟩ := EStateM.Result.ok.inj ((evaluate_argumentType hargument hr).symm.trans hrun)
  rw [List.getElem?_eq_getElem (hlength ▸ hi), hsame]
  rfl

/-- Where there are arguments there are operands. -/
theorem operands_ne (harguments : g.arguments ≠ []) : g.operands ≠ [] := by
  intro hnone
  have hall := g.forall₂_operands
  rw [hnone] at hall
  exact harguments (List.forall₂_nil_right_iff.1 hall)

/-! ### What answers -/

/-- What becomes of a reference whose name leads to a template. -/
theorem outcome_eq {template : Template}
    (hfound : g.between.lookup? g.scope g.name g.localOnly = some home)
    (hentry : resolveEntry (resolveType g.levels) home g.name g.between =
      .ok (.template template) t) :
    g.outcome = instantiate (resolveType g.levels) home g.name template g.operands t := by
  simp only [outcome, resolveName, resolveInstance, get_bind, hfound]
  exact bind_of_ok hentry

/-- A reference is refused, or it is answered by what is entered under its text, or an instance
begins. -/
theorem outcome_cases : (g.Refused ∧ ∃ stop t, g.outcome = .error stop t) ∨
    ∃ home, g.between.lookup? g.scope g.name g.localOnly = some home ∧
      ((∃ template taken key slot t, templateArguments g.name template g.operands = .ok taken ∧
          instanceKey? g.name taken = some key ∧ g.between.slotAt? home key = some slot ∧
          g.outcome = .ok slot t) ∨
        ∃ r : InstanceRun, r.home = home ∧ g.Begins r) := by
  cases hfound : g.between.lookup? g.scope g.name g.localOnly with
  | none =>
    refine Or.inl ⟨.unknown hfound, ?_⟩
    simp only [outcome, resolveName, resolveInstance, get_bind, hfound]
    exact ⟨_, _, rfl⟩
  | some home =>
    have hhome := g.advances.valid.lookup g.scope_lt_between hfound
    cases hentry : resolveEntry (resolveType g.levels) home g.name g.between with
    | error stop t =>
      have hnone : ∀ template u, resolveEntry (resolveType g.levels) home g.name g.between ≠
          .ok (.template template) u := by
        intro template u hok
        cases hentry.symm.trans hok
      refine Or.inl ⟨.noTemplate hfound hnone, ?_⟩
      simp only [outcome, resolveName, resolveInstance, get_bind, hfound]
      exact ⟨stop, t, bind_of_error hentry⟩
    | ok resolved t =>
      cases resolved with
      | type id =>
        have hnone : ∀ template u, resolveEntry (resolveType g.levels) home g.name g.between ≠
            .ok (.template template) u := by
          intro template u hok
          cases hentry.symm.trans hok
        refine Or.inl ⟨.noTemplate hfound hnone, ?_⟩
        simp only [outcome, resolveName, resolveInstance, get_bind, hfound]
        exact ⟨_, t, bind_of_ok hentry⟩
      | template template =>
        obtain ⟨hst, hentered⟩ :=
          (sound_resolveEntry (sound_resolveType g.levels) g.advances.valid hhome g.name).of_ok
          hentry
        obtain ⟨-, hslotAt?⟩ := slotAt?_resolveEntry hentry
        rw [g.outcome_eq hfound hentry]
        cases htaken : templateArguments g.name template g.operands with
        | error error =>
          refine Or.inl ⟨.arity htaken, ?_⟩
          rw [instantiate, htaken]
          exact ⟨_, t, rfl⟩
        | ok taken =>
          rcases instantiate_cases g.levels hst.valid (hst.scope_lt hhome) hentered htaken with
            ⟨⟨stop, hfails⟩, hfull | ⟨key, other, hkey, hknown⟩⟩
            | ⟨key, slot, hkey, hknown, hanswer⟩ |
            ⟨r, rfl, hname, rfl, harguments, rfl, hbegins, hrest, hsteps⟩
          · exact Or.inl ⟨.depth hentry hfull, stop, t, hfails⟩
          · exact Or.inl ⟨.text hentry htaken hkey hknown, stop, t, hfails⟩
          · exact Or.inr ⟨home, rfl, Or.inl ⟨template, taken, key, slot, t, htaken, hkey,
              (hslotAt? home key).symm.trans hknown, hanswer⟩⟩
          · have houtcome := (g.outcome_eq hfound hentry).trans hrest
            exact Or.inr ⟨r.home, rfl,
              Or.inr ⟨r, rfl, hfound, hentry, hname, harguments, hbegins, houtcome,
              fun slot t hrun => hsteps slot t (houtcome.symm.trans hrun)⟩⟩

end GenericRun

/-- **A reference with arguments is such a run**, unless it fails because one of them cannot be
evaluated. -/
theorem exists_genericRun {start : Session}
    (hdefined : defineAll (.initial options) definitions = .ok start) (hsteps : Steps start s)
    (hscope : scope.index < s.scopes.size) (levels : ℕ) (bindings : Bindings) (name : String)
    (arguments : List Expr) (nullable : Bool) :
    (∃ stop t, evaluateArguments (resolveType levels) scope bindings
        (some (TypeRef.substituteExprs bindings arguments)) s = .error stop t ∧
      resolveType (levels + 1) scope ⟨.named name (some arguments), nullable⟩ bindings s =
        .error stop t) ∨
    ∃ g : GenericRun definitions options, g.levels = levels ∧ g.scope = scope ∧
      g.bindings = bindings ∧
      g.name = name ∧ g.arguments = arguments ∧ g.localOnly = false ∧ g.before = s ∧
      resolveType (levels + 1) scope ⟨.named name (some arguments), nullable⟩ bindings
        s = g.outcome := by
  have hreference : resolveType (levels + 1) scope
      ⟨.named name (some arguments), nullable⟩ bindings s =
      (do let operands ← evaluateArguments (resolveType levels) scope bindings
            (some (TypeRef.substituteExprs bindings arguments))
          resolveName (resolveType levels) scope name operands false : Compile TypeId) s := by
    rw [resolveType, resolveStep, TypeRef.substitute, TypeRef.substituteArguments]
  rw [hreference]
  cases hevaluated : evaluateArguments (resolveType levels) scope bindings
      (some (TypeRef.substituteExprs bindings arguments)) s with
  | error stop t => exact Or.inl ⟨stop, t, rfl, bind_of_error hevaluated⟩
  | ok operands t =>
    obtain ⟨operands', u, -, hpure⟩ := exists_of_bind_ok hevaluated
    obtain ⟨rfl, rfl⟩ := EStateM.Result.ok.inj hpure
    exact Or.inr ⟨⟨levels, scope, bindings, name, arguments, operands', false, start, s, u,
      hdefined, hsteps, hscope,
      hevaluated⟩, rfl, rfl, rfl, rfl, rfl, rfl, rfl, bind_of_ok hevaluated⟩

/-- To make definitions leads no key anywhere. -/
theorem slotAt?_of_defineAll (hdefined : defineAll s definitions = .ok t) (home : ScopeId)
    (key : String) :
    t.slotAt? home key = s.slotAt? home key := by
  induction definitions generalizing s with
  | nil =>
    obtain rfl := Except.ok.inj hdefined
    rfl
  | cons first rest ih =>
    obtain ⟨u, hd, hrest⟩ := Schema.exists_of_defineAll_cons hdefined
    obtain ⟨rfl, -, -⟩ := eq_of_define hd
    rw [ih hrest, slotAt?, slotAt?, scope_changeScope]
    split <;> rfl

/-- The keys that lead to a slot before anything is compiled are the names of the
primitives, which are plain. -/
theorem plain_of_defineAll {key : String}
    (hdefined : defineAll (.initial options) definitions = .ok s)
    (h : s.slotAt? home key = some slot) : '<' ∉ key.toList := by
  have hplain : ∀ entry ∈ rootEntries, '<' ∉ entry.1.toList := by decide +kernel
  rw [slotAt?_of_defineAll hdefined] at h
  obtain rfl : home = root :=
    congrArg ScopeId.mk (initial_scope_index (getElem?_scopes (lt_size_of_slotAt? h)))
  obtain ⟨entry, hentry, -⟩ := Option.bind_eq_some_iff.1 h
  exact hplain (key, entry) (Assoc.mem_of_get? hentry)

namespace GenericRun

variable (g : GenericRun definitions options)

/-- **Every reference with arguments that is not refused is answered by an instance**, unless a
definition has the text of one for its name. -/
theorem exists_answer (harguments : g.arguments ≠ [])
    (hplain : ∀ scope ∈ g.between.scopes, ∀ key ∈ scope.definitions.keys, '<' ∉ key.toList) :
    (g.Refused ∧ ∃ stop t, g.outcome = .error stop t) ∨ ∃ r, g.Begins r ∨ g.Finds r := by
  rcases g.outcome_cases with hrefused
    | ⟨home, hfound, ⟨template, taken, key, slot, t, htaken, hkey, hknown, hrun⟩ |
    ⟨r, rfl, hbegins⟩⟩
  · exact Or.inl hrefused
  · have htext : '<' ∈ key.toList := by
      refine mem_of_instanceKey? ?_ hkey
      rcases templateArguments_eq htaken with rfl | ⟨-, rfl⟩
      · exact g.operands_ne harguments
      · exact List.cons_ne_nil _ _
    rcases Steps.instanced g.steps_between hknown
      with hstart | hdefinition | ⟨r, rfl, hkey', rfl, hsteps⟩
    · exact absurd htext (plain_of_defineAll g.defined hstart)
    · have hhome := getElem?_scopes (lt_size_of_slotAt? hknown)
      exact absurd htext (hplain _ (Array.mem_of_getElem? hhome) key hdefinition)
    · exact Or.inr ⟨r,
        Or.inr ⟨hfound, ⟨template, taken, key, htaken, hkey, hkey'⟩, hsteps, t, hrun⟩⟩
  · exact Or.inr ⟨r, Or.inl hbegins⟩

/-- An instance that begins has a new slot. -/
theorem Begins.slot_eq {g : GenericRun definitions options} {r : InstanceRun} (h : g.Begins r) :
    r.slot.index = g.between.arena.size := by
  rw [r.begun.slot_eq, (slotAt?_resolveEntry h.entered).1]

/-- **What has the same slot is answered by the same instance.** -/
theorem finds_of_outcome {r : InstanceRun} (hsteps : Steps r.began g.between)
    (hrun : g.outcome = .ok r.slot t) :
    g.Finds r := by
  rcases g.outcome_cases with ⟨-, stop, u, hfails⟩ |
    ⟨home, hfound, ⟨template, taken, key, slot, u, htaken, hkey, hknown, hanswer⟩
      | ⟨other, -, hbegins⟩⟩
  · rw [hfails] at hrun
    cases hrun
  · -- only its own key leads to the slot of an instance
    obtain ⟨rfl, -⟩ := EStateM.Result.ok.inj (hanswer.symm.trans hrun)
    obtain ⟨rfl, hkey'⟩ := (r.slotAt?_iff hsteps).1 hknown
    exact ⟨hfound, ⟨template, taken, key, htaken, hkey, hkey'⟩, hsteps, t, hrun⟩
  · -- a new instance would have a new slot
    have hold := r.begun.slot_lt.trans_le (Steps.size_le hsteps)
    have hslot : r.slot = other.slot := other.slot_of_rest (hbegins.outcome.symm.trans hrun)
    rw [hslot, hbegins.slot_eq] at hold
    exact absurd hold (Nat.lt_irrefl _)

/-- A reference whose slot is new is answered by a new instance. -/
theorem begins_of_new {r : InstanceRun} (hanswer : g.Begins r ∨ g.Finds r)
    (hrun : g.outcome = .ok ⟨g.between.arena.size⟩ t) : g.Begins r := by
  rcases hanswer with hbegins | hfinds
  · exact hbegins
  · -- the slot of an instance that is there lies below
    obtain ⟨u, hfound⟩ := hfinds.outcome
    obtain ⟨hslot, -⟩ := EStateM.Result.ok.inj (hfound.symm.trans hrun)
    have hlt := r.begun.slot_lt.trans_le (Steps.size_le hfinds.steps)
    rw [hslot] at hlt
    exact absurd hlt (Nat.lt_irrefl _)

end GenericRun

end Wireform.Session
