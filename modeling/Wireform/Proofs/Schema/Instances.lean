import Wireform.Proofs.Schema.Reached
import Wireform.Proofs.Session.Instances

/-!
# An instance for each list of arguments

What answers a reference is an instance of the template that it names, for the arguments that it
gives: other arguments have another text. They may be written in another way where they are
themselves arguments or sizes, since closed arithmetic is done there, and as a path of one name,
which is resolved as the name. Only texts in which each word can be read in one way tell the
arguments. A number that is not finite is written like a type of that name.

* `resolveStep_segment`: a path of one name.
* `instances_told`: the text tells the arguments, and what answers was compiled for them.
* `misread_argument`: a type answers where there is a number.
-/

namespace Wireform

namespace Session

/-- A path of one name is resolved as this name, so that it does no harm that it has the same
text. -/
theorem resolveStep_segment (resolve : Resolver) (scope : ScopeId) (name : String)
    (arguments : Option (List Expr)) (nullable : Bool) (bindings : Bindings) :
    resolveStep resolve scope ⟨.path [⟨name, arguments⟩], nullable⟩ bindings =
      resolveStep resolve scope ⟨.named name arguments, nullable⟩ bindings := by
  simp only [resolveStep, TypeRef.substitute, TypeRef.substituteSegments, resolvePath, bind_pure]

/-- What a template takes can be read in one way if what it is given can. -/
theorem legible_of_templateArguments {name : String} {template : Template}
    {arguments taken : List Operand} (h : templateArguments name template arguments = .ok taken)
    (hlegible : ∀ operand ∈ arguments, operand.legible = true) :
    ∀ operand ∈ taken, operand.legible = true := by
  rcases templateArguments_eq h with rfl | ⟨-, rfl⟩
  · exact hlegible
  · intro operand hmem
    obtain rfl := List.mem_singleton.1 hmem
    rfl

/-- **The text of an instance tells its arguments, if it can be read in one way.** So an instance
that has begun for some arguments answers no reference that gives others, neither while it is
being compiled nor later. -/
theorem instances_told {a b : List Operand} (ha : ∀ operand ∈ a, operand.legible = true)
    (hb : ∀ operand ∈ b, operand.legible = true) :
    (∀ name key, instanceKey? name a = some key → instanceKey? name b = some key →
      a.map Operand.settled = b.map Operand.settled) ∧
    ∀ (r : InstanceRun) (u v : Session) (levels : ℕ) (home : ScopeId) (name : String)
      (template : Template),
      r.arguments = a → isName r.name = true → isName name = true → Steps r.began u →
      home.index < u.scopes.size →
      (u.scope home).entries.get? name = some (.deferred template) →
      instantiate (resolveType levels) home name template b u = .ok r.slot v →
      home = r.home ∧ name = r.name ∧ ∃ taken, templateArguments name template b = .ok taken ∧
        r.taken.map Operand.settled = taken.map Operand.settled := by
  refine ⟨fun name key => settled_of_instanceKey? ha hb, ?_⟩
  rintro r u v levels home name template rfl hr hname hsteps hhome hentered hrun
  obtain ⟨taken, key, htaken, hsame, hkey, hkey'⟩ := r.answers hsteps hhome hentered hrun
  have hlegible := legible_of_templateArguments r.takes ha
  have hlegible' := legible_of_templateArguments htaken hb
  obtain rfl := name_of_instanceKey? hname hr hkey hkey'
  exact ⟨hsame, rfl, taken, htaken, settled_of_instanceKey? hlegible hlegible' hkey' hkey⟩

end Session

namespace Schema

open Session

/-- The body of a template with one field, which is of the type that it takes. -/
def boxed : Definition := .struct (.object [.typed (some "a") (.parameter "T")])

/-- A template with this body, and a type whose name is also what a number is written like. -/
def boxes : List (String × Definition) :=
  [("inf", .synonym (.named "u8")), ("Box", .template ["T"] boxed)]

/-- A byte that takes as much room as an expression says. -/
def roomy (size : Expr) : Operand :=
  .type (.ofKind (.named "Padded" (some [[.type (.named "u8")], size])))

/-- One and two, which are added. -/
def oneAndTwo : Expr := [.number (.ofNat 1), .number (.ofNat 2), .operator "+"]

/-- The sum itself. -/
def three : Expr := [.number (.ofNat 3)]

/-- What answers two references to instances of the template, one after the other, and how many
types there are before. -/
def answers? (first second : List Operand) : Option (ℕ × TypeId × TypeId) :=
  (compile boxes {}).toOption.bind fun schema =>
    match (schema.session.scope root).entries.get? "Box" with
    | some (.deferred (.user parameters body)) =>
      match instantiate (resolveType maxLevels) root "Box"
        (.user parameters body) first schema.session with
      | .ok id t =>
        match instantiate (resolveType maxLevels) root "Box" (.user parameters body) second t with
        | .ok id' _ => some (schema.session.arena.size, id, id')
        | .error _ _ => none
      | .error _ _ => none
    | _ => none

/-- If the first reference is answered by a new type, then that is an instance that has
begun for its arguments. -/
theorem exists_of_answers? {first second : List Operand} {id : TypeId}
    (h : answers? first second = some (id.index, id, id)) :
    ∃ (r : InstanceRun) (u v : Session) (parameters : List String)
      (body : Definition), r.arguments = first ∧
      r.name = "Box" ∧ Steps r.began u ∧ root.index < u.scopes.size ∧
      (u.scope root).entries.get? "Box" = some (.deferred (.user parameters body)) ∧
      instantiate (resolveType maxLevels) root "Box" (.user parameters body) second u =
        .ok r.slot v := by
  obtain ⟨schema, hschema, h⟩ := Option.bind_eq_some_iff.1 h
  have hs := (complete_compile (ok_of_toOption hschema)).toClosed
  split at h
  · next parameters body hentered =>
    split at h
    · next slot t hfirst =>
      split at h
      · next slot' v hsecond =>
        simp only [Option.some.injEq, Prod.mk.injEq] at h
        obtain ⟨hsize, rfl, rfl⟩ := h
        have hsound :=
          sound_instantiate (sound_resolveType maxLevels) hs.toValid hs.root_lt hentered first
        have hst := (hsound.of_ok hfirst).1
        obtain ⟨taken, -, ⟨key, -, hknown, -⟩ | ⟨r, -, hname, -, harguments, -, rfl, -, hsteps⟩⟩ :=
          exists_of_instantiate hs.toValid hs.root_lt hentered hfirst
        · -- the slot of a type that is known lies below
          have hlt := hs.toValid.slotAt?_lt hknown
          omega
        · exact ⟨r, t, v, parameters, body, harguments, hname, hsteps, hst.scope_lt hs.root_lt,
            hst.toGrows.persists.entry hs.root_lt hentered, hsecond⟩
      · cases h
    · cases h
  · cases h

theorem folded_argument : ∃ (r : InstanceRun) (u v : Session) (template : Template),
    [roomy oneAndTwo].map Operand.settled = [roomy three].map Operand.settled ∧
    r.arguments = [roomy oneAndTwo] ∧ Steps r.began u ∧
    instantiate (resolveType maxLevels) root "Box" template [roomy three] u = .ok r.slot v ∧
    r.taken.map Operand.settled = [roomy three].map Operand.settled := by
  have hanswers : answers? [roomy oneAndTwo] [roomy three] = some (30, ⟨30⟩, ⟨30⟩) :=
    by decide +kernel
  have hkey : instanceKey? "Box" [roomy oneAndTwo] = some "Box<Padded<u8, 3>>" := by decide +kernel
  have hkey' : instanceKey? "Box" [roomy three] = some "Box<Padded<u8, 3>>" := by decide +kernel
  have ha : ∀ operand ∈ [roomy oneAndTwo], operand.legible = true := by decide +kernel
  have hb : ∀ operand ∈ [roomy three], operand.legible = true := by decide +kernel
  obtain ⟨r, u, v, parameters, body, hfirst, hname, hsteps, hroot, hentered, hrun⟩ :=
    exists_of_answers? hanswers
  have hisName : isName r.name = true := by rw [hname]; decide
  obtain ⟨htold, hanswered⟩ := instances_told ha hb
  obtain ⟨-, -, taken, htaken, hsame⟩ :=
    hanswered r u v maxLevels root "Box" _ hfirst hisName (by decide) hsteps hroot hentered hrun
  -- a template of the schema takes the arguments that it is given
  obtain rfl : taken = [roomy three] := by
    simp only [templateArguments] at htaken
    split at htaken
    · exact (Except.ok.inj htaken).symm
    · cases htaken
  exact ⟨r, u, v, _, htold "Box" _ hkey hkey', hfirst, hsteps, hrun, hsame⟩

/-- **A number is taken for a type.** A number that is not finite has the text of a type of that
name, so that the instance that has been compiled for the type answers where there is the number,
although this is no type. -/
theorem misread_argument :
    instanceKey? "Box" [.type (.named "inf")] = some "Box<inf>" ∧
    instanceKey? "Box" [.constant (.number (.infinity false))] = some "Box<inf>" ∧
    ([.type (.named "inf")] : List Operand).map Operand.settled ≠
      ([.constant (.number (.infinity false))] : List Operand).map Operand.settled ∧
    answers? [.type (.named "inf")] [.constant (.number (.infinity false))] =
      some (30, ⟨30⟩, ⟨30⟩) ∧
    answers? [.constant (.number (.infinity false))] [.type (.named "inf")] = none := by
  refine ⟨by decide +kernel, by decide +kernel, ?_, by decide +kernel, by decide +kernel⟩
  intro hsame
  cases hsame

end Schema

end Wireform
