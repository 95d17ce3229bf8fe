import Wireform.Proofs.Schema.Reached
import Wireform.Proofs.Session.Expansion

/-!
# Compiling comes to an end

Compiling definitions and resolving references in the schema that results end, if arguments
are put in the place of types only where the template has a parameter for a type: a number
of levels is enough, and the answer is the same with any more. Between two blocks it is the
arguments that make sure of it, not the limit on the depth of blocks. An argument in which
an undeclared parameter has the name of the template's own grows with every level, and no
number of levels is enough.

* `compilation_ends`: both ends, for definitions and references that fit.
* `selfArgument_endless`: an undeclared parameter inside an argument.
-/

namespace Wireform

namespace Session

variable {kinds : Kinds} {s t : Session} {α : Type}

/-! ### Calls -/

theorem starves_atomically {step : Compile α} (h : Starves s step) :
    Starves s (atomically step) := by
  obtain ⟨t, ht⟩ := h.bind fun result => do
    checkContainment s.checkpoint.slots
    return result
  exact ⟨_, atomically_of_error ht⟩

theorem converges_checked {x : ℕ → Compile α} {post : α → Session → Prop} (h : Converges s x post)
    (start : ℕ) : Converges s (fun levels => checked start (x levels)) post := by
  refine Converges.bind h fun a t ha => ?_
  refine Converges.bind (p := fun _ u => u = t) (Converges.get_bind ?_) ?_
  · dsimp only
    cases t.arena.cycle? start with
    | none => exact Converges.pure rfl
    | some id => exact Converges.throw fun heq => nomatch heq
  · rintro _ _ rfl
    exact Converges.pure ha

/-- A call ends if its step does, since the check for types that contain themselves needs no
levels. -/
theorem converges_atomically {x : ℕ → Compile α} {post : α → Session → Prop}
    (h : Converges s x post) :
    Converges s (fun levels => atomically (x levels))
      fun a t => ∃ u, post a u ∧ t = u.commit s.checkpoint := by
  obtain ⟨out, ⟨enough, hsame⟩, hbelow, hend⟩ := converges_checked h s.checkpoint.slots
  have hstarves : ∀ levels, Starves s (checked s.checkpoint.slots (x levels)) →
      Starves s (atomically (x levels)) := fun levels ⟨t, ht⟩ => ⟨_, atomically_of_error ht⟩
  cases out with
  | ok a u =>
    exact ⟨.ok a (u.commit s.checkpoint),
      ⟨enough, fun levels hl => atomically_of_ok (hsame levels hl)⟩,
      fun levels => (hbelow levels).imp atomically_of_ok (hstarves levels), u, hend, rfl⟩
  | error stop u =>
    exact ⟨.error stop (u.rollback s.checkpoint),
      ⟨enough, fun levels hl => atomically_of_error (hsame levels hl)⟩,
      fun levels => (hbelow levels).imp atomically_of_error (hstarves levels), hend⟩

theorem Fits.commit (h : s.Fits kinds) (point : Checkpoint) : (s.commit point).Fits kinds := h

theorem converges_compileName (hs : s.Fits kinds) (name : String) :
    Converges s (fun levels => compileName levels name) fun _ t => t.Fits kinds := by
  have hstep : s.Settles kinds (fun levels => nameStep levels name) fun _ _ => True := by
    refine Settles.get_bind ?_
    cases s.lookup? root name false with
    | none => exact Settles.fail _
    | some home =>
      refine Settles.bind
        (settles_resolveEntry (fun less _ => expands_resolveType kinds less) hs rfl name)
        fun r t hst _ => Settles.pure hst.fits trivial
  refine (converges_atomically hstep).mono ?_
  rintro _ _ ⟨u, hu, rfl⟩
  exact hu.1.fits.commit _

theorem converges_compileNames (hs : s.Fits kinds) (names : List String) :
    Converges s (fun levels => names.forM (compileName levels)) fun _ t => t.Fits kinds := by
  induction names generalizing s with
  | nil => exact Converges.pure hs
  | cons name rest ih => exact Converges.bind (converges_compileName hs name) fun _ t ht => ih ht

theorem converges_resolveRef (hs : s.Fits kinds) {r : TypeRef} (hr : r.fits kinds [] false = true) :
    Converges s (fun levels => resolveRef levels r) fun _ t => t.Fits kinds := by
  have hstep := expands_resolveType kinds s.room [] [] r (Binds.nil kinds) hr s root hs rfl
  refine (converges_atomically hstep).mono ?_
  rintro _ _ ⟨u, hu, rfl⟩
  exact hu.1.fits.commit _

/-! ### Before anything is compiled -/

theorem fits_initial (kinds : Kinds) (options : Options) : (initial options).Fits kinds := by
  intro id
  cases hscope : (initial options).scopes[id.index]? with
  | none =>
    rw [scope, hscope]
    exact ⟨[], fits_missing⟩
  | some found =>
    rw [scope_eq hscope, initial_scope hscope]
    refine ⟨[], Binds.nil kinds, rfl, fun key parameters body hmem => ?_⟩
    rcases mem_rootEntries hmem with ⟨i, -, heq⟩ | ⟨builtin, heq⟩ <;> cases heq

theorem fits_define (hs : s.Fits kinds) {name : String} {definition : Definition}
    (hdefinition : fitsDefinition kinds [] name definition = true)
    (h : s.define name definition = .ok t) :
    t.Fits kinds := by
  obtain ⟨rfl, -, -⟩ := eq_of_define h
  intro id
  obtain ⟨names, hnames⟩ := hs id
  rw [scope_changeScope]
  split
  · refine ⟨names, hnames.binds, ?_, hnames.templates⟩
    have hmore := fitsDefinition_mono (List.nil_subset names) name definition hdefinition
    have hold : fitsDefinitions kinds names (s.scope id).definitions = true := hnames.definitions
    simp [fitsDefinitions_append, fitsDefinitions, hold, hmore]
  · exact ⟨names, hnames⟩

end Session

namespace Schema

open Session

/-- The schema of some definitions, given how many levels of references may be resolved. -/
def compileWithin (levels : ℕ) (definitions : List (String × Definition)) (options : Options) :
    Except (Stop CompileError) Schema := do
  let s ← (defineAll (.initial options) definitions).mapError .failure
  match (s.topLevelNames.forM (compileName levels)) s with
  | .ok _ s => .ok ⟨s⟩
  | .error stop _ => .error stop

/-- The type of a reference, and the schema after that, given how many levels may be resolved. -/
def resolveRefWithin (schema : Schema) (levels : ℕ) (r : TypeRef) :
    Except (Stop CompileError) TypeId × Schema :=
  let (result, session) := outcome (Session.resolveRef levels r) schema.session
  (result, ⟨session⟩)

theorem compileWithin_maxLevels : compileWithin maxLevels = compile := rfl

theorem resolveRefWithin_maxLevels (schema : Schema) :
    schema.resolveRefWithin maxLevels = schema.resolveRef := rfl

/-- The schemas to which some definitions lead if the references resolved in them fit. -/
inductive Fitting (kinds : Kinds) (definitions : List (String × Definition)) (options : Options) :
    Schema → Prop where
  | compile {levels : ℕ} {schema : Schema}
      (h : compileWithin levels definitions options = .ok schema) :
      Fitting kinds definitions options schema
  | resolveRef {schema : Schema} (h : Fitting kinds definitions options schema)
      (levels : ℕ) {r : TypeRef} (hr : r.fits kinds [] false = true) :
      Fitting kinds definitions options (schema.resolveRefWithin levels r).2

variable {kinds : Kinds} {definitions : List (String × Definition)} {options : Options}
  {schema : Schema}

/-- What compiling all names is answered with. -/
def compileAnswer : EStateM.Result (Stop CompileError) Session Unit →
    Except (Stop CompileError) Schema
  | .ok _ s => .ok ⟨s⟩
  | .error stop _ => .error stop

/-- What resolving a reference is answered with. -/
def resolveAnswer : EStateM.Result (Stop CompileError) Session TypeId →
    Except (Stop CompileError) TypeId × Schema
  | .ok id s => (.ok id, ⟨s⟩)
  | .error stop s => (.error stop, ⟨s⟩)

theorem compileWithin_of_defined {s : Session}
    (h : defineAll (.initial options) definitions = .ok s) (levels : ℕ) :
    compileWithin levels definitions options =
      compileAnswer ((s.topLevelNames.forM (compileName levels)) s) := by
  unfold compileWithin compileAnswer
  rw [h]
  rfl

theorem resolveRefWithin_eq (schema : Schema) (levels : ℕ) (r : TypeRef) :
    schema.resolveRefWithin levels r =
      resolveAnswer (Session.resolveRef levels r schema.session) := by
  unfold resolveRefWithin outcome
  cases Session.resolveRef levels r schema.session <;> rfl

theorem compileWithin_of_rejected {error : CompileError}
    (h : defineAll (.initial options) definitions = .error error) (levels : ℕ) :
    compileWithin levels definitions options = .error (.failure error) := by
  unfold compileWithin
  rw [h]
  rfl

theorem fits_defineAll {s t : Session} (hs : s.Fits kinds)
    (hfits : fitsDefinitions kinds [] definitions = true) (h : defineAll s definitions = .ok t) :
    t.Fits kinds := by
  induction definitions generalizing s with
  | nil =>
    obtain rfl := Except.ok.inj h
    exact hs
  | cons first rest ih =>
    simp only [fitsDefinitions, Bool.and_eq_true] at hfits
    obtain ⟨u, hd, hrest⟩ := exists_of_defineAll_cons h
    exact ih (fits_define hs hfits.1 hd) hfits.2 hrest

/-- What is reached through references that fit is closed and fits. -/
theorem Fitting.session (hfits : fitsDefinitions kinds [] definitions = true)
    (h : Fitting kinds definitions options schema) :
    schema.session.Closed ∧ schema.session.Fits kinds := by
  induction h with
  | @compile levels schema h =>
    cases hd : defineAll (.initial options) definitions with
    | error error =>
      rw [compileWithin_of_rejected hd] at h
      cases h
    | ok s =>
      have hclosed := closed_defineAll (closed_initial options) hd
      have hs := fits_defineAll (fits_initial kinds options) hfits hd
      rw [compileWithin_of_defined hd] at h
      cases hrun : (s.topLevelNames.forM (compileName levels)) s with
      | ok _ t =>
        rw [hrun] at h
        obtain rfl := Except.ok.inj h
        exact ⟨((ensures_compileNames hclosed levels _ fun _ hname => hname).of_ok hrun).1,
          (converges_compileNames hs _).of_ok hrun⟩
      | error stop t =>
        rw [hrun] at h
        cases h
  | @resolveRef schema h levels r hr ih =>
    have hend := ensures_resolveRef ih.1 levels r
    rw [resolveRefWithin_eq]
    cases hrun : Session.resolveRef levels r schema.session with
    | ok id t => exact ⟨(hend.of_ok hrun).1, (converges_resolveRef ih.2 hr).of_ok hrun⟩
    | error stop t =>
      obtain ⟨rfl, -⟩ := hend.of_error hrun
      exact ih

/-- **Compiling and resolving end**, whatever the options are: there is one answer, other
than the lack of levels, which enough levels always lead to, and with fewer levels there is
the same answer or none. -/
theorem compilation_ends (hfits : fitsDefinitions kinds [] definitions = true) (options : Options) :
    (∃ answer, answer ≠ .error .outOfFuel ∧
      (∃ enough, ∀ levels ≥ enough, compileWithin levels definitions options = answer) ∧
      ∀ levels, compileWithin levels definitions options = answer ∨
        compileWithin levels definitions options = .error .outOfFuel) ∧
    ∀ schema, Fitting kinds definitions options schema →
      ∀ r : TypeRef, r.fits kinds [] false = true → ∃ answer, answer.1 ≠ .error .outOfFuel ∧
        (∃ enough, ∀ levels ≥ enough, schema.resolveRefWithin levels r = answer) ∧
        ∀ levels, schema.resolveRefWithin levels r = answer ∨
          schema.resolveRefWithin levels r = (.error .outOfFuel, schema) := by
  refine ⟨?_, fun schema h r hr => ?_⟩
  · cases hd : defineAll (.initial options) definitions with
    | error error =>
      have hsame := compileWithin_of_rejected hd
      refine ⟨_, ?_, ⟨0, fun levels _ => hsame levels⟩, fun levels => Or.inl (hsame levels)⟩
      exact fun heq => nomatch heq
    | ok s =>
      have hs := fits_defineAll (fits_initial kinds options) hfits hd
      simp only [compileWithin_of_defined hd]
      exact (converges_compileNames hs s.topLevelNames).exists_answer compileAnswer
        (fun _ _ heq => nomatch heq)
        (fun _ _ hstop heq => hstop (Except.error.inj heq)) fun _ _ _ => rfl
  · obtain ⟨hclosed, hs⟩ := h.session hfits
    simp only [resolveRefWithin_eq]
    refine (converges_resolveRef hs hr).exists_answer
      (p := fun answer => answer.1 ≠ .error .outOfFuel)
      resolveAnswer (fun _ _ heq => nomatch heq) (fun _ _ hstop heq => hstop (Except.error.inj heq))
      fun levels t ht => ?_
    -- a call that fails leaves the session as it was
    obtain ⟨rfl, -⟩ := (ensures_resolveRef hclosed levels r).of_error ht
    rfl

/-- A template whose instances hold instances with greater arguments. -/
def growing : List (String × Definition) :=
  [("Grow", .template ["T"] (.struct (.object [.typed (some "x")
      (.generic "Grow" [[.type (.array (.parameter "T") [.number (.ofNat 2)])]])]))),
    ("A", .struct (.object [.typed (some "a") (.generic "Grow" [[.type (.named "u8")]])]))]

/-- The template takes a type, which is its only parameter. -/
def growingKinds : Kinds where
  takesType template position := template = "Grow" ∧ position = 0
  declares name := name = "T"

theorem growing_compilation_ends :
    fitsDefinitions growingKinds [] growing = true ∧
      ∃ enough answer, answer ≠ .error .outOfFuel ∧
        ∀ levels ≥ enough, compileWithin levels growing {} = answer := by
  have hfits : fitsDefinitions growingKinds [] growing = true := by
    decide
  obtain ⟨⟨answer, hends, ⟨enough, hsame⟩, -⟩, -⟩ := compilation_ends hfits {}
  exact ⟨hfits, enough, answer, hends, hsame⟩

/-! ### An argument that is put into itself -/

/-- A struct with one field, whose type is a parameter that nothing declares where it stands. -/
def undeclared : StructBody := .object [.typed (some "x") (.parameter "T")]

/-- A template applied to a struct in which its own parameter stands. -/
def selfArgument : List (String × Definition) :=
  [("A", .struct (.object [.typed (some "a") (.generic "Box" [[.type (.inline undeclared)]])])),
    ("Box", .template ["T"] (.struct undeclared))]

/-- A field lacks levels if its type does. -/
theorem starves_undeclared {resolve : Resolver} {s : Session} {scope : ScopeId}
    {bindings : Bindings} (h : ∀ t, Starves t (resolve scope (.parameter "T") bindings)) :
    Starves s (compileStruct resolve scope undeclared bindings) := by
  refine Starves.bind (Starves.bind (Starves.bind_of_ok (a := (FieldPlace.key "x", 0)) rfl ?_) _) _
  exact (h s).bind _

/-- Where the parameter is bound to the struct in which it stands, resolving it never ends. -/
theorem starves_parameter {bindings : Bindings}
    (hb : bindings.get? "T" = some (.type (.inline undeclared))) (levels : ℕ) :
    ∀ (s : Session) (scope : ScopeId),
      Starves s (resolveType levels scope (.parameter "T") bindings) := by
  induction levels with
  | zero => exact fun s _ => ⟨s, rfl⟩
  | succ levels ih =>
    intro s scope
    have hput : (TypeRef.parameter "T").substitute bindings = .inline undeclared := by
      simp only [TypeRef.parameter, TypeRef.ofKind, TypeRef.substitute, hb]
      rfl
    change Starves s (resolveStep (resolveType levels) scope (.parameter "T") bindings)
    unfold resolveStep
    rw [hput]
    -- the inline struct has no definitions of its own, so its field is next
    exact Starves.bind_of_ok (a := none) rfl ((starves_undeclared fun t => ih t scope).bind _)

theorem starves_compileBlock {resolve : Resolver} {s t : Session} {home : ScopeId}
    {key : Option String} {ident : String} {body : BlockBody} {bindings : Bindings} {slot : TypeId}
    {nested : Option ScopeId} (hdepth : s.depth < s.options.maxDepth)
    (hbegin : beginBlock home key body.locals? bindings s = .ok (slot, nested) t)
    (h : Starves t (compileBody resolve home nested ident bindings body)) :
    Starves s (compileBlock resolve home key ident body bindings) := by
  refine Starves.get_bind ?_
  rw [if_neg (Nat.not_le_of_lt hdepth)]
  exact Starves.bind_of_ok hbegin (h.bind _)

/-- The template applied to the struct, where it has not been asked for before. -/
theorem starves_box {s : Session} (hdepth : s.depth < s.options.maxDepth)
    (hlookup : s.lookup? root "Box" false = some root)
    (hnew : (s.scope root).entries.get? "Box" = none)
    (hdefinition : (s.scope root).definitions.get? "Box" =
      some (.template ["T"] (.struct undeclared)))
    (levels : ℕ) :
    Starves s (resolveType levels root (.generic "Box" [[.type (.inline undeclared)]]) []) := by
  cases levels with
  | zero => exact ⟨s, rfl⟩
  | succ levels =>
    have hget : ∀ f : Session → Compile Resolved, (get >>= f) s = f s s := fun _ => rfl
    have hentry : resolveEntry (resolveType levels) root "Box" s = (do
        insert root "Box" (.deferred (.user ["T"] (.struct undeclared)))
        return .template (.user ["T"] (.struct undeclared)) : Compile Resolved) s := by
      unfold resolveEntry
      rw [hget, hnew, hdefinition]
    change Starves s (resolveStep (resolveType levels) root _ [])
    refine Starves.bind_of_ok (a := some [Operand.type (.inline undeclared)]) rfl ?_
    refine Starves.get_bind ?_
    rw [hlookup]
    refine Starves.bind_of_ok (hentry.trans rfl) ?_
    -- the argument has no text, so there is no instance to be found
    refine Starves.bind_of_ok (a := [Operand.type (.inline undeclared)]) rfl ?_
    have hkey : instanceKey? "Box" [Operand.type (.inline undeclared)] = none := by
      simp [instanceKey?, Operand.chars?, TypeRef.inline, TypeRef.ofKind, TypeRef.canonicalChars?]
    refine Starves.get_bind ?_
    rw [hkey]
    change Starves _ (compileBlock _ root none _ (.definition (.struct undeclared)) _)
    refine starves_compileBlock hdepth rfl ?_
    refine starves_undeclared fun t => ?_
    exact starves_parameter (Assoc.get?_put_self _ _ _) levels t root

/-- The session in which these definitions are compiled. -/
def selfArgumentStart : Session :=
  { Session.initial {} with scopes := #[⟨none, selfArgument, rootEntries, []⟩] }

/-- **An undeclared parameter inside an argument can make compiling go on for ever**, whatever the
limit on the depth of blocks: no number of levels is enough. -/
theorem selfArgument_endless :
    ¬∃ levels, compileWithin levels selfArgument {} ≠ .error .outOfFuel := by
  rintro ⟨levels, hends⟩
  refine hends ?_
  have hstart : defineAll (.initial {}) selfArgument = .ok selfArgumentStart := rfl
  have hstep : Starves selfArgumentStart (nameStep levels "A") := by
    refine Starves.get_bind (Starves.bind (Starves.get_bind (Starves.bind ?_ _)) _)
    refine starves_compileBlock (Nat.zero_lt_succ _) rfl ?_
    -- the first field asks for the template
    refine Starves.bind (Starves.bind (Starves.bind_of_ok (a := (FieldPlace.key "a", 0)) rfl ?_) _)
      _
    exact (starves_box (Nat.lt_add_of_pos_left (Nat.zero_lt_succ _)) rfl rfl rfl levels).bind _
  obtain ⟨t, ht⟩ := (starves_atomically hstep).bind fun _ => ["Box"].forM (compileName levels)
  rw [compileWithin_of_defined hstart]
  have hrun : (selfArgumentStart.topLevelNames.forM (compileName levels)) selfArgumentStart =
      .error .outOfFuel t := ht
  rw [hrun]
  rfl

end Schema

end Wireform
