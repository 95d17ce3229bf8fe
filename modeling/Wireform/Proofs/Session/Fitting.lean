import Wireform.Proofs.Converges
import Wireform.Proofs.Expression.Kinds
import Wireform.Proofs.Session.Growth
import Wireform.Session.Resolution

/-!
# Sessions whose definitions fit

A namespace fits if its bindings, its definitions and the templates entered in it fit, all
of them for the same names. Blocks open their namespaces under bindings that fit, and what
they enter as a template is a definition of the namespace, so a session that fits stays so.

`Settles` says of a step that it ends if it has enough levels, and that the session fits
afterwards and has as many blocks open as before.

* `Settles.bind`: one step after another.
* `settles_block`: a block, which is one level deeper than what is around it.
-/

namespace Wireform

variable {kinds : Kinds} {names : List String}

/-- A namespace and what is entered in it fit, given the names that stand for types there. -/
structure Scope.Fits (kinds : Kinds) (names : List String) (scope : Scope) : Prop where
  binds : Binds kinds names scope.bindings
  definitions : fitsDefinitions kinds names scope.definitions = true
  templates : ∀ key parameters body, (key, Entry.deferred (.user parameters body)) ∈ scope.entries →
    fitsDefinition kinds names key (.template parameters body) = true

/-- A template that is entered under a name in a namespace fits there. -/
def Template.Fits (kinds : Kinds) (scope : Scope) (name : String) : Template → Prop
  | .user parameters body => ∃ names, Binds kinds names scope.bindings ∧
      fitsDefinition kinds names name (.template parameters body) = true
  | .builtin _ => True

theorem fitsDefinition_of_get? {definitions : Assoc Definition} {key : String}
    {definition : Definition} (h : fitsDefinitions kinds names definitions = true)
    (hkey : definitions.get? key = some definition) :
    fitsDefinition kinds names key definition = true := by
  induction definitions with
  | nil => cases hkey
  | cons entry rest ih =>
    obtain ⟨name, first⟩ := entry
    simp only [fitsDefinitions, Bool.and_eq_true] at h
    rw [Assoc.get?] at hkey
    split at hkey
    · next heq =>
      obtain rfl := Option.some.inj hkey
      exact heq ▸ h.1
    · exact ih h.2 hkey

theorem fitsDefinitions_append {definitions more : List (String × Definition)} :
    fitsDefinitions kinds names (definitions ++ more) =
      (fitsDefinitions kinds names definitions && fitsDefinitions kinds names more) := by
  induction definitions with
  | nil => rfl
  | cons entry rest ih =>
    obtain ⟨name, definition⟩ := entry
    simp only [List.cons_append, fitsDefinitions, ih, Bool.and_assoc]

/-- What is entered as a template is a definition. -/
theorem Scope.Fits.put {scope : Scope} (h : scope.Fits kinds names) {key : String} {entry : Entry}
    (hentry : ∀ parameters body, entry = .deferred (.user parameters body) →
      scope.definitions.get? key = some (.template parameters body)) :
    Scope.Fits kinds names { scope with entries := scope.entries.put key entry } where
  binds := h.binds
  definitions := h.definitions
  templates := by
    intro other parameters body hmem
    rcases Assoc.mem_put hmem with hold | ⟨rfl, hnew⟩
    · exact h.templates other parameters body hold
    · exact fitsDefinition_of_get? h.definitions (hentry parameters body hnew.symm)

namespace Session

/-- Every namespace fits. -/
def Fits (kinds : Kinds) (s : Session) : Prop :=
  ∀ id : ScopeId, ∃ names, (s.scope id).Fits kinds names

/-- How many blocks may be opened inside each other from now on. -/
def room (s : Session) : ℕ := s.options.maxDepth - s.depth

/-- The session fits, and as many blocks are open as before. -/
structure Stays (kinds : Kinds) (s t : Session) : Prop where
  fits : t.Fits kinds
  depth : t.depth = s.depth
  options : t.options = s.options

/-- With enough levels the step ends; a result satisfies `post`, and the session fits. -/
def Settles {α : Type} (kinds : Kinds) (s : Session) (x : ℕ → Compile α)
    (post : α → Session → Prop) : Prop :=
  Converges s x fun a t => Stays kinds s t ∧ post a t

variable {s t u : Session} {α β : Type}

theorem Stays.refl (h : s.Fits kinds) : Stays kinds s s := ⟨h, rfl, rfl⟩

theorem Stays.trans (hst : Stays kinds s t) (htu : Stays kinds t u) : Stays kinds s u :=
  ⟨htu.fits, htu.depth.trans hst.depth, htu.options.trans hst.options⟩

theorem Stays.room (h : Stays kinds s t) : t.room = s.room := by
  rw [Session.room, Session.room, h.depth, h.options]

/-! ### Steps add up -/

namespace Settles

variable {x : ℕ → Compile α} {post : α → Session → Prop}

theorem mono {post' : α → Session → Prop} (h : s.Settles kinds x post)
    (hp : ∀ a t, Stays kinds s t → post a t → post' a t) : s.Settles kinds x post' :=
  Converges.mono h fun a t ha => ⟨ha.1, hp a t ha.1 ha.2⟩

/-- **One step after another.** -/
theorem bind {f : ℕ → α → Compile β} {p : α → Session → Prop} {post' : β → Session → Prop}
    (h : s.Settles kinds x p)
    (hf : ∀ a t, Stays kinds s t → p a t → t.Settles kinds (fun levels => f levels a) post') :
    s.Settles kinds (fun levels => x levels >>= f levels) post' := by
  refine Converges.bind h ?_
  rintro a t ⟨hst, ha⟩
  exact Converges.mono (hf a t hst ha) fun b u hb => ⟨hst.trans hb.1, hb.2⟩

theorem map {f : α → β} {p : α → Session → Prop} {post' : β → Session → Prop}
    (h : s.Settles kinds x p) (hf : ∀ a t, Stays kinds s t → p a t → post' (f a) t) :
    s.Settles kinds (fun levels => f <$> x levels) post' := by
  simp only [map_eq_pure_bind]
  refine h.bind fun a t hst ha => ?_
  exact Converges.pure ⟨Stays.refl hst.fits, hf a t hst ha⟩

theorem pure {a : α} (hs : s.Fits kinds) (h : post a s) :
    s.Settles kinds (fun _ => Pure.pure a) post :=
  Converges.pure ⟨Stays.refl hs, h⟩

theorem fail (error : CompileError) : s.Settles kinds (fun _ => .fail error) post :=
  Converges.throw fun heq => nomatch heq

theorem get_bind {f : ℕ → Session → Compile β} {post' : β → Session → Prop}
    (h : s.Settles kinds (fun levels => f levels s) post') :
    s.Settles kinds (fun levels => get >>= f levels) post' := h

theorem orFail {x : Except CompileError α} (hs : s.Fits kinds) :
    s.Settles kinds (fun _ => Session.orFail x) fun a t => x = .ok a ∧ t = s := by
  cases x with
  | ok a => exact pure hs ⟨rfl, rfl⟩
  | error error => exact fail error

end Settles

/-! ### Single operations -/

theorem settles_maxSize (hs : s.Fits kinds) (id : TypeId) :
    s.Settles kinds (fun _ => maxSize id) fun _ _ => True :=
  Settles.get_bind (Settles.pure hs trivial)

theorem settles_push (hs : s.Fits kinds) (type : CompiledType) :
    s.Settles kinds (fun _ => push type) fun _ _ => True :=
  Converges.of_ensures ⟨⟨hs, rfl, rfl⟩, trivial⟩

theorem settles_sharedEmptyTuple (hs : s.Fits kinds) :
    s.Settles kinds (fun _ => sharedEmptyTuple) fun _ _ => True := by
  unfold sharedEmptyTuple
  refine Settles.get_bind ?_
  cases s.emptyTuple with
  | some id => exact Settles.pure hs trivial
  | none =>
    refine Settles.bind (settles_push hs _) fun id t hst _ => ?_
    exact Converges.of_ensures ⟨⟨hst.fits, rfl, rfl⟩, trivial⟩

/-- A namespace without anything in it fits. -/
theorem fits_missing : Scope.Fits kinds [] ⟨none, [], [], []⟩ :=
  ⟨Binds.nil kinds, rfl, fun _ _ _ h => nomatch h⟩

/-- An entry is made in one namespace; a template has to be a definition there. -/
theorem Fits.changeScope (hs : s.Fits kinds) {home : ScopeId} {key : String} {entry : Entry}
    (hentry : ∀ parameters body, entry = .deferred (.user parameters body) →
      (s.scope home).definitions.get? key = some (.template parameters body)) :
    (s.changeScope home fun scope => { scope with entries := scope.entries.put key entry }).Fits
      kinds := by
  intro id
  obtain ⟨names, hnames⟩ := hs id
  rw [scope_changeScope]
  split
  · next hboth =>
    obtain ⟨rfl, -⟩ := hboth
    exact ⟨names, hnames.put hentry⟩
  · exact ⟨names, hnames⟩

/-- A namespace is opened under bindings that fit. -/
theorem Fits.openScope (hs : s.Fits kinds) {scope : Scope} (hscope : scope.Fits kinds names) :
    Fits kinds { s with scopes := s.scopes.push scope } := by
  intro id
  rw [scope_push]
  split
  · exact ⟨names, hscope⟩
  · exact hs id

theorem settles_openLocals (hs : s.Fits kinds) {bindings : Bindings}
    (hb : Binds kinds names bindings) (parent : ScopeId) (locals : Option (Assoc Definition))
    (hlocals : ∀ definitions, locals = some definitions →
      fitsDefinitions kinds names definitions = true) :
    s.Settles kinds (fun _ => openLocals parent bindings locals) fun _ _ => True := by
  cases locals with
  | none => exact Settles.pure hs trivial
  | some definitions =>
    refine Settles.map (p := fun _ _ => True) (Converges.of_ensures ?_) fun _ _ _ _ => trivial
    have hscope : Scope.Fits kinds names ⟨some parent, definitions, [], bindings⟩ :=
      ⟨hb, hlocals definitions rfl, fun _ _ _ h => (nomatch h)⟩
    exact ⟨⟨hs.openScope hscope, rfl, rfl⟩, trivial⟩

theorem settles_insert (hs : s.Fits kinds) {home : ScopeId} {key : String} {entry : Entry}
    (hentry : ∀ parameters body, entry = .deferred (.user parameters body) →
      (s.scope home).definitions.get? key = some (.template parameters body)) :
    s.Settles kinds (fun _ => insert home key entry) fun _ t =>
      (t.scope home).bindings = (s.scope home).bindings := by
  refine Converges.of_ensures ⟨⟨hs.changeScope hentry, rfl, rfl⟩, ?_⟩
  unfold scope
  simp only [Session.changeScope, Array.getElem?_modify, if_true]
  cases s.scopes[home.index]? <;> rfl

/-! ### Blocks -/

theorem converges_beginBlock (hs : s.Fits kinds) {bindings : Bindings}
    (hb : Binds kinds names bindings) (home : ScopeId) (key : Option String)
    (locals : Option (Assoc Definition))
    (hlocals : ∀ definitions, locals = some definitions →
      fitsDefinitions kinds names definitions = true) :
    Converges s (fun _ => beginBlock home key locals bindings) fun _ t =>
      t.Fits kinds ∧ t.depth = s.depth + 1 ∧ t.options = s.options := by
  have hreserve : s.Settles kinds (fun _ => reserve) fun _ _ => True :=
    Converges.of_ensures ⟨⟨hs, rfl, rfl⟩, trivial⟩
  refine Converges.bind hreserve ?_
  rintro slot t ⟨hst, -⟩
  refine Converges.bind (settles_openLocals hst.fits hb home locals hlocals) ?_
  rintro nested u ⟨htu, -⟩
  have hlock : u.Settles kinds (fun _ => lockEntry home slot nested key) fun _ _ => True := by
    cases key with
    | none => exact Settles.pure htu.fits trivial
    | some key =>
      refine Settles.mono (settles_insert htu.fits ?_) fun _ _ _ _ => trivial
      exact fun _ _ h => nomatch h
  refine Converges.bind hlock ?_
  rintro _ v ⟨huv, -⟩
  have hsv := (hst.trans htu).trans huv
  refine Converges.of_ensures ⟨hsv.fits, ?_, hsv.options⟩
  exact congrArg (· + 1) hsv.depth

theorem converges_endBlock (hs : s.Fits kinds) (home : ScopeId)
    (key : Option String) (slot : TypeId) (type : CompiledType) :
    Converges s (fun _ => endBlock home key slot type) fun _ t =>
      t.Fits kinds ∧ t.depth = s.depth - 1 ∧ t.options = s.options := by
  cases key with
  | none => exact Converges.of_ensures ⟨hs, rfl, rfl⟩
  | some key => exact Converges.of_ensures ⟨Fits.changeScope hs fun _ _ h => (nomatch h), rfl, rfl⟩

/-- **A block ends if its body does**, which has room for one block less. -/
theorem settles_compileBlock {resolve : ℕ → Resolver} (hs : s.Fits kinds) {bindings : Bindings}
    (hb : Binds kinds names bindings) (home : ScopeId) (key : Option String) (ident : String)
    (body : BlockBody)
    (hlocals : ∀ definitions, body.locals? = some definitions →
      fitsDefinitions kinds names definitions = true)
    (hbody : ∀ (t : Session) nested, t.Fits kinds → t.room < s.room →
      t.Settles kinds (fun levels => compileBody (resolve levels) home nested ident bindings body)
        fun _ _ => True) :
    s.Settles kinds (fun levels => compileBlock (resolve levels) home key ident body bindings)
      fun _ _ => True := by
  refine Settles.get_bind ?_
  by_cases hdepth : s.options.maxDepth ≤ s.depth
  · simp only [if_pos hdepth]
    exact Settles.fail _
  · simp only [if_neg hdepth]
    refine Converges.bind (converges_beginBlock hs hb home key body.locals? hlocals) ?_
    rintro ⟨slot, nested⟩ t ⟨ht, hdeeper, hoptions⟩
    have hroom : t.room < s.room := by
      rw [Session.room, Session.room, hdeeper, hoptions]
      exact Nat.sub_lt_sub_left (Nat.lt_of_not_le hdepth) (Nat.lt_succ_self _)
    refine Converges.bind (hbody t nested ht hroom) ?_
    rintro ⟨layout, size⟩ u ⟨htu, -⟩
    refine Converges.bind (converges_endBlock htu.fits home key slot _) ?_
    rintro _ v ⟨hv, hshallower, hoptions'⟩
    refine Converges.pure ⟨⟨hv, ?_, hoptions'.trans (htu.options.trans hoptions)⟩, trivial⟩
    rw [hshallower, htu.depth, hdeeper, Nat.add_sub_cancel]

end Session

end Wireform
