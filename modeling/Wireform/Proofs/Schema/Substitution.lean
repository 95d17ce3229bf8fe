import Wireform.Proofs.Layout.Decidable
import Wireform.Proofs.Schema.Reached
import Wireform.Proofs.Session.TwinResolution

/-!
# Putting arguments into a reference

The arguments of parameters can be put into a reference before it is resolved, or be kept as
bindings until each part of it is resolved. What becomes of it is the same type, unless it has an
inline struct with local definitions that use such a parameter: nothing is put into these.

* `Session.Valid.resolveType_substitute`: the two ways.
* `Schema.local_parameter_kept`: a local definition in which a parameter is left.
-/

namespace Wireform

namespace Session

variable {s : Session} {q : ScopeId} {r : TypeRef} {b : Bindings}

/-- **Arguments may be put in first.** Then no parameter with an argument is left, the reference is
resolved without bindings if and only if it is resolved with them, and the types have the same
slot, bound and codec. -/
theorem Valid.resolveType_substitute (hs : s.Valid)
    (hbound : ∀ name type, b.get? name = some (.type type) → type.avoids b = true)
    (hlocals : r.localsAvoid b = true) (q : ScopeId) (levels : ℕ) :
    (r.substitute b).avoids b = true ∧
      match resolveType levels q r b s, resolveType levels q (r.substitute b) [] s with
      | .ok id t, .ok id' t' => id' = id ∧ t'.arena.maxSize id' = t.arena.maxSize id ∧
          Schema.codec? ⟨t'⟩ id' = Schema.codec? ⟨t⟩ id
      | .error _ _, .error _ _ => True
      | _, _ => False := by
  have havoids := TypeRef.avoids_substitute hbound hlocals
  refine ⟨havoids, ?_⟩
  cases levels with
  | zero => trivial
  | succ levels =>
    -- both start with the same reference, once with the bindings and once without any
    have hsame : (r.substitute b).substitute [] = r.substitute b := TypeRef.substitute_nil _
    have htandem := tandem_resolveStep (inTandem_resolveType b levels) (hs.twins b) (q := q)
      (.parted (.emptied hbound)) hsame fun _ => havoids
    change Tandem b _ s s (resolveType (levels + 1) q r b)
      (resolveType (levels + 1) q (r.substitute b) []) _ at htandem
    unfold Tandem at htandem
    split at htandem
    · next id t id' t' hdirect hput =>
      obtain ⟨rfl, m, -, htwins, -⟩ := htandem
      rw [hdirect, hput]
      refine ⟨rfl, ?_, ?_⟩
      · rw [htwins.arena]
      · rw [Schema.codec?, Schema.codec?, htwins.arena]
    · next hdirect hput =>
      rw [hdirect, hput]
      trivial
    · exact htandem.elim

end Session

namespace Schema

open Session

/-- A struct that gives a type a local name, and has a field of that type and one of a parameter. -/
def localUnder (target : TypeRef) : TypeRef :=
  ⟨.inline ⟨.object, [.typed "x" (.named "L"), .typed "y" (.parameter "T")],
    [("L", .synonym target)]⟩, false⟩

/-- The argument of the parameter is a byte. -/
def byteArgument : Bindings := [("T", .type (.named "u8"))]

theorem byteArgument_avoids (name : String) (type : TypeRef)
    (hget : byteArgument.get? name = some (.type type)) :
    type.avoids byteArgument = true := by
  obtain ⟨-, heq⟩ := Prod.mk.inj (List.mem_singleton.1 (Assoc.mem_of_get? hget))
  obtain rfl := Operand.type.inj heq
  rfl

/-- The schema without definitions. -/
def emptySchema : Schema := (compile [] {}).toOption.get (by decide +kernel)

theorem reached_empty : Reached [] {} emptySchema := .compile (eq_ok_get _)

theorem localUnder_resolved : ∃ schema id t id' t', Reached [] {} schema ∧
    (localUnder (.named "u8")).localsAvoid byteArgument = true ∧
    ((localUnder (.named "u8")).substitute byteArgument).avoids byteArgument = true ∧
    resolveType maxLevels root (localUnder (.named "u8")) byteArgument schema.session = .ok id t ∧
    resolveType maxLevels root ((localUnder (.named "u8")).substitute byteArgument) []
      schema.session = .ok id' t' ∧
    id' = id ∧ t'.arena.maxSize id' = t.arena.maxSize id ∧ codec? ⟨t'⟩ id' = codec? ⟨t⟩ id := by
  have hruns : (ending (resolveType maxLevels root (localUnder (.named "u8")) byteArgument)
      emptySchema.session).toOption.isSome = true := by decide +kernel
  obtain ⟨⟨id, t⟩, hrun⟩ := exists_ok_of_isSome hruns
  have hrun := ok_of_ending hrun
  have hlocals : (localUnder (.named "u8")).localsAvoid byteArgument = true := by decide +kernel
  obtain ⟨havoids, hboth⟩ :=
    reached_empty.complete.toValid.resolveType_substitute byteArgument_avoids hlocals root maxLevels
  rw [hrun] at hboth
  split at hboth
  · next id₁ t₁ id' t' hdirect hput =>
    obtain ⟨rfl, rfl⟩ := EStateM.Result.ok.inj hdirect
    exact ⟨emptySchema, _, _, id', t', reached_empty, hlocals, havoids, hrun, hput, hboth⟩
  · next hdirect _ => cases hdirect
  · exact hboth.elim

/-- **A parameter is left in a local definition.** Under its binding the struct is resolved, but not
once the argument has been put in. -/
theorem local_parameter_kept : ∃ schema, Reached [] {} schema ∧
    (∀ name type, byteArgument.get? name = some (.type type) → type.avoids byteArgument = true) ∧
    ((localUnder (.parameter "T")).substitute byteArgument).avoids byteArgument = false ∧
    (∃ id t, resolveType maxLevels root (localUnder (.parameter "T")) byteArgument schema.session =
      .ok id t) ∧
    ∃ t, resolveType maxLevels root ((localUnder (.parameter "T")).substitute byteArgument) []
      schema.session = .error (.failure (.undefinedType "T")) t := by
  have hdirect : (ending (resolveType maxLevels root (localUnder (.parameter "T")) byteArgument)
      emptySchema.session).toOption.isSome = true := rfl
  have hput :
      ending (resolveType maxLevels root ((localUnder (.parameter "T")).substitute byteArgument) [])
      emptySchema.session = .error (.failure (.undefinedType "T")) := rfl
  obtain ⟨⟨id, t⟩, hrun⟩ := exists_ok_of_isSome hdirect
  exact ⟨emptySchema, reached_empty, byteArgument_avoids, by decide +kernel,
    ⟨id, t, ok_of_ending hrun⟩, error_of_ending hput⟩

end Schema

end Wireform
