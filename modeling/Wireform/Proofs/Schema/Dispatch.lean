import Wireform.Proofs.Layout.Decidable
import Wireform.Proofs.Schema.Recursion
import Wireform.Proofs.Session.Provenance

/-!
# What enums know of their payloads

An enum is told by its payloads which discriminants they declare themselves. It asks when it is
compiled, and a payload that is being compiled at that moment, because it has led to the enum, does
not answer: its slot is empty. For all other payloads the answer is that of the finished type.

* `Reached.dispatch_accounted`: behind each enum there is a run that accounts for its variants.
* `unfinished_payload`: a payload that did not answer.
-/

namespace Wireform

namespace Schema

open Session

variable {definitions : List (String × Definition)} {options : Options} {schema : Schema}
  {s t : Session}

/-! ### Calls -/

/-- What a call leaves has come in steps: it ends by clearing the journal, or leaves what it
found. -/
theorem steps_outcome {α : Type} {step : Compile α} (hs : s.Closed)
    (hstep : s.Sound step fun _ t => Steps s t) :
    Steps s (outcome (atomically step) s).2 := by
  have hrun := ensures_atomically hs hstep
  unfold Ensures at hrun
  unfold outcome
  split at hrun
  · next a t ht =>
    rw [ht]
    obtain ⟨hclosed, -, u, hu, rfl⟩ := hrun
    have hkept : Persists u (u.commit s.checkpoint) :=
      ⟨(Persists.refl u).slots, (Persists.refl u).scopes⟩
    exact hu.tail
      (.adds hclosed.toValid hkept (fun _ hid => hid) (fun _ _ _ hid _ => hid) fun _ _ => rfl)
  · next stop t ht =>
    rw [ht]
    obtain ⟨rfl, -⟩ := hrun
    exact .refl

theorem steps_nameStep (hs : s.Closed) (levels : ℕ) (name : String) :
    s.Sound (nameStep levels name) fun _ t => Steps s t := by
  refine Sound.get_bind ?_
  split
  · exact Sound.fail (by simp)
  · next home hfound =>
    have hhome := hs.toValid.lookup hs.root_lt hfound
    exact Sound.bind (steps_resolveEntry (steps_resolveType levels) hs.toValid hhome .refl name)
      fun _ t hst ht => Sound.pure hst.valid ht

/-- **All sessions between calls** have come in steps from the one in which the
definitions were made. -/
theorem Arises.steps (h : Arises definitions options s) :
    ∃ o, defineAll (.initial options) definitions = .ok o ∧ Steps o s := by
  induction h with
  | @defined s h => exact ⟨s, h, .refl⟩
  | compileName h name ih =>
    obtain ⟨o, ho, hsteps⟩ := ih
    exact ⟨o, ho, hsteps.trans (steps_outcome h.closed (steps_nameStep h.closed maxLevels name))⟩
  | resolveRef h r ih =>
    obtain ⟨o, ho, hsteps⟩ := ih
    have hs := h.closed
    exact ⟨o, ho, hsteps.trans (steps_outcome hs
      (steps_resolveType maxLevels _ _ root r [] hs.toValid hs.root_lt .refl))⟩

theorem arena_of_defineAll (hdefined : defineAll s definitions = .ok t) : t.arena = s.arena := by
  induction definitions generalizing s with
  | nil =>
    obtain rfl := Except.ok.inj hdefined
    rfl
  | cons first rest ih =>
    obtain ⟨u, hd, hrest⟩ := exists_of_defineAll_cons hdefined
    obtain ⟨rfl, -, -⟩ := eq_of_define hd
    rw [ih hrest]
    rfl

/-- Before anything is compiled there are no enums. -/
theorem traced_of_defineAll (hdefined : defineAll (.initial options) definitions = .ok s) :
    s.Traced := by
  intro id type e hid hl
  rw [arena_of_defineAll hdefined] at hid
  obtain ⟨name, p, rfl⟩ := initial_type hid
  cases hl

theorem Arises.traced (h : Arises definitions options s) : s.Traced := by
  obtain ⟨o, ho, hsteps⟩ := h.steps
  exact Steps.traced hsteps (traced_of_defineAll ho)

namespace Reached

/-- **Enums know their payloads.** Behind each enum of a schema that can be reached there is a run
that has compiled it, and each such run accounts for its variants by the finished types, except for
payloads that were being compiled themselves at that time. -/
theorem dispatch_accounted (h : Reached definitions options schema) {id : TypeId}
    {type : CompiledType} {e : EnumLayout} (hid : schema.session.arena.get? id = some type)
    (hl : type.layout = .enum e) :
    (∃ r : EnumRun, r.slot = id ∧ Steps r.after schema.session) ∧
    ∀ r : EnumRun, r.slot = id → Precedes r.after schema.session →
      r.AccountsFor schema.session e := by
  refine ⟨h.arises.traced id type e hid hl, ?_⟩
  rintro r rfl hlater
  exact r.accountsFor hlater hid hl

end Reached

/-- A struct that gives its own discriminant, with a field that may hold a value of the enum
again. -/
def selfNamed : Definition :=
  .struct
    (.object [.literal (some "type") (.string "x"), .typed (some "e") (TypeRef.named "E").orNull])

/-- An enum of which it is the only variant. -/
def onlyVariant : Definition := .enum ⟨.object, none, none, [⟨.ofUInt64 0, "V"⟩], []⟩

/-- The schema in which the enum is compiled first, and looks at the finished struct. -/
def finishedSchema : Schema :=
  (compile [("E", onlyVariant), ("V", selfNamed)] {}).toOption.get (by decide +kernel)

/-- The schema in which the struct is compiled first, and asks for the enum. -/
def unfinishedSchema : Schema :=
  (compile [("V", selfNamed), ("E", onlyVariant)] {}).toOption.get (by decide +kernel)

/-- The layout of an enum with this variant, given its discriminant and whether the payload declares
it. -/
def onlyLayout (dispatch : String) (declares : Bool) (payload : TypeId) : Layout :=
  .enum ⟨.object, ⟨0⟩, "type", [⟨"V", .ofUInt64 0, .string dispatch, payload, false, declares⟩]⟩

theorem slot_finished : (finishedSchema.session.arena.get? ⟨29⟩).map CompiledType.layout =
    some (onlyLayout "x" true ⟨30⟩) := by
  decide +kernel

/-- The session in which these definitions have been made. -/
def finishedStart : Session :=
  (defineAll (.initial {}) [("E", onlyVariant), ("V", selfNamed)]).toOption.get (by decide +kernel)

/-- Compiles the enum in that session. -/
def finishedBlock : Except (Stop CompileError) TypeId × Session :=
  outcome (compileBlock (resolveType maxLevels) root (some "E") "E" (.definition onlyVariant) [])
    finishedStart

theorem eq_ok_of_outcome {α : Type} {x : Compile α} {a : α}
    (h : (outcome x s).1.toOption = some a) : x s = .ok a (outcome x s).2 := by
  unfold outcome at h ⊢
  cases hrun : x s with
  | ok found after =>
    rw [hrun] at h
    obtain rfl := Option.some.inj h
    rfl
  | error stop after =>
    rw [hrun] at h
    cases h

/-- The run that compiles the enum. -/
def finishedRun : EnumRun where
  levels := maxLevels
  home := root
  key := some "E"
  ident := "E"
  body := ⟨.object, none, none, [⟨.ofUInt64 0, "V"⟩], []⟩
  bindings := []
  slot := ⟨29⟩
  before := finishedStart
  after := finishedBlock.2
  valid := (Arises.defined (eq_ok_get (by decide +kernel))).closed.toValid
  home_lt := by decide +kernel
  fresh := by decide +kernel
  admits := by
    rintro k ⟨⟩
    refine Or.inr (Or.inl ?_)
    decide +kernel
  run := eq_ok_of_outcome (by decide +kernel)

theorem precedes_finishedRun : Precedes finishedRun.after finishedSchema.session := by
  have hslots : finishedRun.after.arena.slots = finishedSchema.session.arena.slots := by
    decide +kernel
  have hempty : finishedRun.after.emptyTuple = none := by decide +kernel
  refine ⟨?_, fun id hid => ?_⟩
  · have harena : finishedRun.after.arena = finishedSchema.session.arena := congrArg Arena.mk hslots
    rw [harena]
    exact .refl _
  · rw [hempty] at hid
    cases hid

/-- The slot of the struct leads to itself only, and there was nothing in it yet. -/
theorem not_inProgress_finishedRun (other : TypeId)
    (h : finishedSchema.session.arena.LeadsTo ⟨30⟩ other) : ¬finishedRun.InProgress other := by
  have hplain : (finishedSchema.session.arena.get? ⟨30⟩).map (·.layout.mandatory) = some [] := by
    decide +kernel
  have hfree : finishedRun.before.arena.slots[30]? = none := by decide +kernel
  cases h with
  | self =>
    rintro (heq | hempty)
    · cases heq
    · rw [hfree] at hempty
      cases hempty
  | synonym hfound hsynonym _ =>
    rw [hfound, Option.map_some, hsynonym] at hplain
    cases hplain

theorem finished_payload : ∃ schema type e,
    Reached [("E", onlyVariant), ("V", selfNamed)] {} schema ∧
    schema.session.arena.get? ⟨29⟩ = some type ∧ type.layout = .enum e ∧
    ∃ (r : EnumRun) (t : Session), r.slot = ⟨29⟩ ∧ r.AccountsFor schema.session e ∧
      r.payloads r.before = .ok [(⟨.ofUInt64 0, "V"⟩, ⟨30⟩)] t ∧
      (∀ other, schema.session.arena.LeadsTo ⟨30⟩ other → ¬r.InProgress other) ∧
      e.variants.map (fun variant => (variant.dispatch, variant.declaresTarget)) =
        [(.string "x", true)] := by
  have h : Reached [("E", onlyVariant), ("V", selfNamed)] {} finishedSchema :=
    .compile (eq_ok_get _)
  obtain ⟨type, hid, hl⟩ := Option.map_eq_some_iff.1 slot_finished
  have haccounts := (h.dispatch_accounted hid hl).2 finishedRun rfl precedes_finishedRun
  -- the name of the only entry is resolved to the slot of the struct, which is finished
  have hnamed : (outcome finishedRun.payloads finishedRun.before).1.toOption =
      some [(⟨.ofUInt64 0, "V"⟩, ⟨30⟩)] := by decide +kernel
  have hrun := eq_ok_of_outcome hnamed
  obtain ⟨named, t, hpayloads, -, hvariants⟩ := haccounts.variants
  obtain ⟨rfl, -⟩ := EStateM.Result.ok.inj (hpayloads.symm.trans hrun)
  obtain ⟨variant, rest, hreflects, hrest, hlist⟩ := List.forall₂_cons_left_iff.1 hvariants
  obtain rfl := List.forall₂_nil_left_iff.1 hrest
  have hliteral : (structBehind? finishedSchema.session.arena ⟨30⟩).bind
      (declared? .object "type") = some (.string "x") := by
    decide +kernel
  have htarget :
      finishedRun.body.target.getD finishedRun.before.options.defaultTagField = "type" := by
    decide +kernel
  have hshown := hreflects not_inProgress_finishedRun
  rw [haccounts.shape, haccounts.target, htarget] at hshown
  obtain ⟨hdispatch, -, hdeclares⟩ := hshown.declared (.string "x") hliteral
  refine ⟨finishedSchema, type, _, h, hid, hl, finishedRun, t, rfl, haccounts, hpayloads,
    not_inProgress_finishedRun, ?_⟩
  rw [hlist, List.map_singleton, hdispatch, hdeclares]
  rfl

/-- **A payload that did not answer.** If the struct stands in front of the enum, it is being
compiled when the enum is, so that the enum takes the name of the variant for its discriminant; the
finished struct declares another. Then what the struct says of itself is no value of the enum. -/
theorem unfinished_payload :
    (∃ schema, compile [("E", onlyVariant), ("V", selfNamed)] {} = .ok schema ∧
      (schema.session.arena.get? ⟨29⟩).map CompiledType.layout = some (onlyLayout "x" true ⟨30⟩)) ∧
    ∃ schema body, compile [("V", selfNamed), ("E", onlyVariant)] {} = .ok schema ∧
      (schema.session.arena.get? ⟨30⟩).map CompiledType.layout = some (onlyLayout "V" false ⟨29⟩) ∧
      structBehind? schema.session.arena ⟨29⟩ = some body ∧
      body.literalAt? (.key "type") = some (.string "x") ∧
      (schema.codec? ⟨30⟩).map (·.encode (.object [("type", .string "x"), ("e", .null)])) =
        some (.error (.failure ⟨[], .unknownVariant (.string "x")⟩)) := by
  refine ⟨⟨finishedSchema, eq_ok_get _, slot_finished⟩, ?_⟩
  have henum : (unfinishedSchema.session.arena.get? ⟨30⟩).map CompiledType.layout =
      some (onlyLayout "V" false ⟨29⟩) := by decide +kernel
  have hbody : (structBehind? unfinishedSchema.session.arena ⟨29⟩).map
      (·.literalAt? (.key "type")) =
      some (some (.string "x")) := by decide +kernel
  have hrefuses : (unfinishedSchema.codec? ⟨30⟩).map
      (·.encode (.object [("type", .string "x"), ("e", .null)])) =
      some (.error (.failure ⟨[], .unknownVariant (.string "x")⟩)) := by decide +kernel
  obtain ⟨body, hbody, hliteral⟩ := Option.map_eq_some_iff.1 hbody
  exact ⟨unfinishedSchema, body, eq_ok_get _, henum, hbody, hliteral, hrefuses⟩

end Schema

end Wireform
