import Wireform.Proofs.Session.Resolution

/-!
# What the variants of an enum say of their payloads

When an enum is compiled, the bodies of its variants are looked at once, to see whether they declare
the discriminant themselves. A body that was still being compiled then cannot be seen through its
slot. All others are seen as they are in every later session, since what is in a slot stays there.

* `namedSlots`, `EnumRun.payloads`: the slots to which the names of the entries were resolved.
* `Reflects`: what a variant says of its payload is what the payload's slot shows.
* `reflects_compileVariants`: it is what the slot showed when the variant was compiled.
* `EnumRun.accountsFor`: it is what the slot shows later, unless the body was being compiled then.
-/

namespace Wireform.Session

/-! ### What is kept -/

/-- What is in a slot, and the shared empty tuple, are still there. -/
structure Precedes (s t : Session) : Prop where
  arena : Arena.Extends s.arena t.arena
  emptyTuple : ∀ id, s.emptyTuple = some id → t.emptyTuple = some id

variable {s t u : Session} {shape : EnumShape} {target : String} {entry : EnumEntry} {raw : TypeId}
  {variant : VariantLayout}

theorem Precedes.refl (s : Session) : Precedes s s := ⟨.refl _, fun _ h => h⟩

theorem Precedes.trans (hst : Precedes s t) (htu : Precedes t u) : Precedes s u :=
  ⟨hst.arena.trans htu.arena, fun id h => htu.emptyTuple id (hst.emptyTuple id h)⟩

theorem Grows.precedes (h : Grows s t) : Precedes s t where
  arena := h.extends
  emptyTuple := by
    intro id hid
    rcases h.emptyTuple with hsame | ⟨hnone, -⟩
    · rwa [hsame]
    · rw [hnone] at hid
      cases hid

theorem Advances.precedes (h : Advances s t) : Precedes s t := h.toGrows.precedes

theorem Begun.precedes {home : ScopeId} {key : Option String} {slot : TypeId}
    {nested : Option ScopeId} (h : Begun s t home key slot nested) : Precedes s t :=
  ⟨h.arena_extends, fun id hid => by rw [h.emptyTuple, hid]⟩

/-- The slot that a block fills was empty until then. -/
theorem Begun.precedes_end {home : ScopeId} {key : Option String} {slot : TypeId}
    {nested : Option ScopeId} {v : Session} {type : CompiledType}
    (h : Begun s t home key slot nested) (hu : Grows t u)
    (he : Ended u v home key slot type) : Precedes u v :=
  ⟨he.arena ▸ h.fill_extends hu type, fun id hid => by rw [he.emptyTuple, hid]⟩

/-! ### Variants -/

/-- The literal by which the body of a variant declares the discriminant itself. -/
def declared? (shape : EnumShape) (target : String) (body : StructLayout) : Option Json :=
  match shape with
  | .tuple => leadingLiteral? body
  | .object => body.literalAt? (.key target)

theorem declared?_of_empty {body : StructLayout} (h : body.fields = []) :
    declared? shape target body = none := by
  cases shape <;> simp [declared?, leadingLiteral?, StructLayout.literalAt?, h]

/-- A struct that is behind a slot has its bits and positions in order. -/
theorem Valid.numbered (hs : s.Valid) {id : TypeId} {body : StructLayout}
    (h : structBehind? s.arena id = some body) : body.Numbered := by
  unfold structBehind? at h
  split at h
  · next found hfound =>
    obtain ⟨type, hpeel, hl⟩ := Option.map_eq_some_iff.1 hfound
    obtain ⟨other, -, hget⟩ := Arena.exists_leadsTo_of_peelWithin? hpeel
    obtain rfl := Option.some.inj h
    exact (hs.types other type hget).builds.numbered _ hl
  · cases h

/-- What a variant says of the payload that its entry names is what is seen behind the payload's
slot. -/
structure Reflects (arena : Arena) (emptyTuple : Option TypeId) (shape : EnumShape)
    (target : String) (entry : EnumEntry) (raw : TypeId) (variant : VariantLayout) : Prop where
  name : variant.name = entry.variant
  tag : variant.tag = entry.tag
  /-- A body that declares the discriminant gives it. -/
  declared : ∀ literal, (structBehind? arena raw).bind (declared? shape target) = some literal →
    variant.dispatch = literal ∧ variant.embeddedTag = decide (shape = .tuple) ∧
      variant.declaresTarget = decide (shape = .object)
  /-- Otherwise the name is the discriminant. -/
  undeclared : (structBehind? arena raw).bind (declared? shape target) = none →
    variant.dispatch = .string entry.variant ∧ variant.embeddedTag = false ∧
    variant.declaresTarget = false
  /-- In an array an empty body becomes the shared empty tuple. -/
  empty : shape = .tuple → ∀ body, structBehind? arena raw = some body → body.shape = .empty →
    emptyTuple = some variant.payload
  /-- Otherwise the payload is the one that is named. -/
  payload : (shape = .tuple → ∀ body, structBehind? arena raw = some body → body.shape ≠ .empty) →
    variant.payload = raw

theorem Reflects.congr {a b : Arena} {emptyTuple emptyTuple' : Option TypeId}
    (h : Reflects a emptyTuple shape target entry raw variant)
    (hsame : structBehind? a raw = structBehind? b raw)
    (hempty : ∀ id, emptyTuple = some id → emptyTuple' = some id) :
    Reflects b emptyTuple' shape target entry raw variant where
  name := h.name
  tag := h.tag
  declared := hsame ▸ h.declared
  undeclared := hsame ▸ h.undeclared
  empty := fun htuple body hbody hshape => hempty _ (h.empty htuple body (hsame ▸ hbody) hshape)
  payload := hsame ▸ h.payload

theorem emptyTuple_of_shared {id : TypeId} (hrun : sharedEmptyTuple s = .ok id t) :
    t.emptyTuple = some id := by
  unfold sharedEmptyTuple at hrun
  obtain ⟨_, _, ⟨⟩, hrun⟩ := exists_of_bind_ok hrun
  cases hfound : s.emptyTuple with
  | some found =>
    simp only [hfound] at hrun
    obtain ⟨rfl, rfl⟩ := EStateM.Result.ok.inj hrun
    exact hfound
  | none =>
    simp only [hfound] at hrun
    obtain ⟨pushed, mid, -, hrun⟩ := exists_of_bind_ok hrun
    obtain ⟨_, _, ⟨⟩, hrun⟩ := exists_of_bind_ok hrun
    obtain ⟨rfl, rfl⟩ := EStateM.Result.ok.inj hrun
    rfl

/-- In an array the payload is the named one, or the empty tuple in place of an empty body. -/
theorem exists_of_variantLayout_tuple
    (hrun : variantLayout .tuple target entry raw s = .ok variant t) :
    ∃ payload, variant = ⟨entry.variant, entry.tag,
        ((structBehind? s.arena raw).bind leadingLiteral?).getD (.string entry.variant), payload,
        ((structBehind? s.arena raw).bind leadingLiteral?).isSome, false⟩ ∧
      ((∃ body, structBehind? s.arena raw = some body ∧ body.shape = .empty) →
        t.emptyTuple = some payload) ∧
      ((∀ body, structBehind? s.arena raw = some body → body.shape ≠ .empty) → payload = raw) := by
  unfold variantLayout at hrun
  obtain ⟨_, _, ⟨⟩, hrun⟩ := exists_of_bind_ok hrun
  dsimp only at hrun
  split at hrun
  · next hempty =>
    obtain ⟨payload, mid, hpayload, hrun⟩ := exists_of_bind_ok hrun
    obtain ⟨rfl, rfl⟩ := EStateM.Result.ok.inj hrun
    obtain ⟨body, hbody, hshape⟩ := (Option.any_eq_true _ _).1 hempty
    exact ⟨payload, rfl, fun _ => emptyTuple_of_shared hpayload,
      fun hfull => absurd (of_decide_eq_true hshape) (hfull body hbody)⟩
  · next hfull =>
    obtain ⟨rfl, rfl⟩ := EStateM.Result.ok.inj hrun
    refine ⟨raw, rfl, fun ⟨body, hbody, hshape⟩ => absurd ?_ hfull, fun _ => rfl⟩
    exact (Option.any_eq_true _ _).2 ⟨body, hbody, decide_eq_true hshape⟩

/-- A variant is made of what is seen behind the slot of its payload. -/
theorem reflects_variantLayout (hrun : variantLayout shape target entry raw s = .ok variant t) :
    Reflects s.arena t.emptyTuple shape target entry raw variant := by
  cases shape with
  | object =>
    obtain ⟨rfl, rfl⟩ := EStateM.Result.ok.inj hrun
    have hdeclared : declared? .object target = fun body => body.literalAt? (.key target) := rfl
    refine ⟨rfl, rfl, fun literal hl => ?_, fun hnone => ?_, nofun, fun _ => rfl⟩
    · rw [hdeclared] at hl
      simp [hl]
    · rw [hdeclared] at hnone
      simp [hnone]
  | tuple =>
    have hdeclared : declared? .tuple target = leadingLiteral? := rfl
    obtain ⟨payload, rfl, hempty, hfull⟩ := exists_of_variantLayout_tuple hrun
    refine ⟨rfl, rfl, fun literal hl => ?_, fun hnone => ?_,
      fun _ body hbody hshape => hempty ⟨body, hbody, hshape⟩, fun hnot => hfull (hnot rfl)⟩
    · rw [hdeclared] at hl
      simp [hl]
    · rw [hdeclared] at hnone
      simp [hnone]

variable {resolve : Resolver} {scope : ScopeId} {bindings : Bindings}

/-- The slots to which the names of some entries are resolved, each with its entry, when their
variants are compiled one after the other. -/
def namedSlots (resolve : Resolver) (scope : ScopeId) (bindings : Bindings) (shape : EnumShape)
    (target : String) : List EnumEntry → Compile (List (EnumEntry × TypeId))
  | [] => pure []
  | entry :: rest => do
    let payload ← resolve scope (.named entry.variant) bindings
    let _ ← variantLayout shape target entry payload
    let rest ← namedSlots resolve scope bindings shape target rest
    return (entry, payload) :: rest

/-- An entry has been compiled to a variant between two sessions: its name was resolved, and what
was seen behind the slot then is what the variant says. -/
def CompilesEntry (resolve : Resolver) (scope : ScopeId) (bindings : Bindings) (shape : EnumShape)
    (target : String) (s t : Session) (named : EnumEntry × TypeId)
    (variant : VariantLayout) : Prop :=
  ∃ before after, Advances s before ∧
    resolve scope (.named named.1.variant) bindings before = .ok named.2 after ∧
    Advances before after ∧ named.2.index < after.arena.size ∧ Advances after t ∧
    Reflects after.arena t.emptyTuple shape target named.1 named.2 variant

/-- **Each entry is compiled to its variant**, by way of the slot that its name is resolved to. -/
theorem reflects_compileVariants (hr : resolve.Sound) (hs : s.Valid)
    (hscope : scope.index < s.scopes.size) {greatest size : Size} {entries : List EnumEntry}
    {variants : List VariantLayout}
    (hrun : compileVariants resolve scope bindings shape target greatest entries s =
      .ok (variants, size) t) :
    ∃ named, namedSlots resolve scope bindings shape target entries s = .ok named t ∧
      named.map Prod.fst = entries ∧
      List.Forall₂ (CompilesEntry resolve scope bindings shape target s t) named variants := by
  induction entries generalizing s greatest variants with
  | nil =>
    cases hrun
    exact ⟨[], rfl, rfl, .nil⟩
  | cons entry rest ih =>
    unfold compileVariants at hrun
    obtain ⟨raw, after, hraw, hrun⟩ := exists_of_bind_ok hrun
    obtain ⟨hsa, hlt⟩ := (hr s scope _ bindings hs hscope).of_ok hraw
    obtain ⟨variant, u, hvariant, hrun⟩ := exists_of_bind_ok hrun
    have hau := ((sound_variantLayout hsa.valid shape target entry hlt).of_ok hvariant).1
    obtain ⟨bound, v, hbound, hrun⟩ := exists_of_bind_ok hrun
    obtain ⟨-, rfl⟩ := EStateM.Result.ok.inj hbound
    obtain ⟨⟨variants, bound'⟩, w, hrest, hrun⟩ := exists_of_bind_ok hrun
    obtain ⟨heq, rfl⟩ := EStateM.Result.ok.inj hrun
    obtain ⟨rfl, rfl⟩ := Prod.mk.inj heq
    have hsu := hsa.trans hau
    have hut :=
      ((sound_compileVariants hr hsu.valid (hsu.scope_lt hscope) bindings shape target _ rest).of_ok
      hrest).1
    obtain ⟨named, hnamed, hentries, hothers⟩ := ih hsu.valid (hsu.scope_lt hscope) hrest
    refine ⟨(entry, raw) :: named, ?_, congrArg (entry :: ·) hentries, .cons ?_ ?_⟩
    · exact (bind_of_ok hraw).trans ((bind_of_ok hvariant).trans (bind_of_ok hnamed))
    · exact ⟨s, after, .refl hs, hraw, hsa, hlt, hau.trans hut,
        (reflects_variantLayout hvariant).congr rfl hut.precedes.emptyTuple⟩
    -- the other entries are compiled later
    · refine hothers.imp fun other variant hother => ?_
      obtain ⟨before, after, hbefore, hother⟩ := hother
      exact ⟨before, after, hsu.trans hbefore, hother⟩

/-! ### Enums -/

/-- A block whose body is an enum and that has been compiled, in a valid session and under a new
key. -/
structure EnumRun where
  levels : ℕ
  home : ScopeId
  key : Option String
  ident : String
  body : EnumBody
  bindings : Bindings
  slot : TypeId
  before : Session
  after : Session
  valid : before.Valid
  home_lt : home.index < before.scopes.size
  fresh : ∀ k ∈ key, k ∉ (before.scope home).entries.keys
  admits : ∀ k ∈ key, (before.scope home).Admits home.index k
  run : compileBlock (resolveType levels) home key ident
    (.definition (.enum body)) bindings before =
    .ok slot after

namespace EnumRun

variable (r : EnumRun)

/-- A type that was being compiled when the enum was: the enum itself, or one whose slot was empty
then. -/
def InProgress (id : TypeId) : Prop := id = r.slot ∨ r.before.arena.slots[id.index]? = some none

/-- The slots to which the names of the entries were resolved in the run: the same steps are taken
again, from the session in which the block began. -/
def payloads : Compile (List (EnumEntry × TypeId)) := do
  let (_, nested) ← beginBlock r.home r.key (Definition.enum r.body).locals? r.bindings
  let scope := nested.getD r.home
  let options := (← get).options
  let _ ← resolveType r.levels scope
    (r.body.tagType.getD (.named options.defaultTagType)) r.bindings
  namedSlots (resolveType r.levels) scope r.bindings r.body.shape
    (r.body.target.getD options.defaultTagField) r.body.entries

/-- A slot was there in a session of the run, after which the run went on to its end. -/
structure Meets (id : TypeId) (t : Session) : Prop where
  valid : t.Valid
  lt_size : id.index < t.arena.size
  precedes : Precedes t r.after
  inProgress : ∀ id : TypeId, t.arena.slots[id.index]? = some none → r.InProgress id

variable {r}

/-- Behind a slot that was resolved there is later what was there then, unless something on the
way was being compiled. -/
theorem Meets.get?_eq {t u : Session} {raw : TypeId} (h : r.Meets raw t)
    (hlater : Precedes t u) (hdone : ∀ other, u.arena.LeadsTo raw other → ¬r.InProgress other)
    (other : TypeId) (hother : u.arena.LeadsTo raw other) :
    t.arena.get? other = u.arena.get? other := by
  obtain ⟨hvalid, hlt, -, hempty⟩ := h
  -- a slot that was there then and is not in progress was filled
  have hfilled : ∀ id : TypeId, id.index < t.arena.size → ¬r.InProgress id →
      ∃ type, t.arena.get? id = some type ∧ u.arena.get? id = some type := by
    intro id hid hnot
    have hslot : t.arena.slots[id.index]? = some t.arena.slots[id.index] :=
      Array.getElem?_eq_getElem hid
    cases hfound : t.arena.slots[id.index] with
    | none => exact absurd (hempty id (by rw [hslot, hfound])) hnot
    | some type =>
      have hget : t.arena.get? id = some type := by rw [Arena.get?, hslot, hfound]; rfl
      exact ⟨type, hget, hlater.arena.get? id type hget⟩
  induction hother with
  | self id =>
    obtain ⟨type, hthen, hnow⟩ := hfilled id hlt (hdone id (.self id))
    rw [hthen, hnow]
  | @synonym id target other type hid hl _ ih =>
    obtain ⟨found, hthen, hnow⟩ := hfilled id hlt (hdone id (.self id))
    obtain rfl := Option.some.inj (hid.symm.trans hnow)
    -- a synonym refers to a slot that was there before it
    have htarget : target ∈ type.layout.references := by
      rw [hl]
      exact List.mem_singleton_self target
    exact ih (fun other hother => hdone other (.synonym hid hl hother))
      ((hvalid.types id type hthen).builds.references target htarget)

variable (r)

/-- Each variant says what was seen behind the slot that its entry names, when the
name had been resolved. -/
theorem exists_variants : ∃ type e named, r.after.arena.get? r.slot = some type ∧
    type.layout = .enum e ∧
    e.shape = r.body.shape ∧ e.target = r.body.target.getD r.before.options.defaultTagField ∧
    (∃ t, r.payloads r.before = .ok named t) ∧ named.map Prod.fst = r.body.entries ∧
    List.Forall₂ (fun named variant => ∃ t, r.Meets named.2 t ∧
      Reflects t.arena r.after.emptyTuple e.shape e.target named.1 named.2 variant) named
        e.variants := by
  have hsound := sound_resolveType r.levels
  obtain ⟨nested, b, layout, size, u, hbegin, hbegun, hbody, hended⟩ :=
    exists_of_compileBlock r.home_lt r.fresh r.run
  have hb : b.Valid := hbegun.valid r.valid r.home_lt r.admits
  have hscope : (nested.getD r.home).index < b.scopes.size := by
    cases nested with
    | none => exact r.home_lt.trans_le hbegun.scopes_size_le
    | some id => exact hbegun.nested id rfl
  -- the body is the tag, then the entries
  have hbu := ((sound_compileEnum hsound hb hscope r.body r.bindings).of_ok hbody).1
  have hbody : compileEnum (resolveType r.levels) (nested.getD r.home) r.body r.bindings b =
    .ok (layout, size) u := hbody
  unfold compileEnum at hbody
  obtain ⟨_, _, ⟨⟩, hbody⟩ := exists_of_bind_ok hbody
  obtain ⟨tag, t, htag, hbody⟩ := exists_of_bind_ok hbody
  have hbt := ((hsound b _ _ r.bindings hb hscope).of_ok htag).1
  obtain ⟨⟨variants, greatest⟩, v, hvariants, hbody⟩ := exists_of_bind_ok hbody
  obtain ⟨bound, w, hbound, hbody⟩ := exists_of_bind_ok hbody
  obtain ⟨heq, rfl⟩ := EStateM.Result.ok.inj hbody
  obtain ⟨rfl, rfl⟩ := Prod.mk.inj heq
  have hend := hbegun.precedes_end hbu.toGrows hended
  have htv :=
    ((sound_compileVariants hsound hbt.valid (hbt.scope_lt hscope) r.bindings _ _ _ _).of_ok
      hvariants).1
  have hvw := ((sound_maxSize htv.valid tag).of_ok hbound).1
  have hget : r.after.arena.get? r.slot = some ⟨r.ident, bound + greatest,
      .enum ⟨r.body.shape, tag, r.body.target.getD b.options.defaultTagField, variants⟩,
      nested⟩ := by
    rw [hended.arena, Arena.get?_fill, if_pos ⟨rfl, hbegun.slot_lt.trans_le hbu.size_le⟩]
  obtain ⟨named, hnamed, hentries, hreflects⟩ :=
    reflects_compileVariants hsound hbt.valid (hbt.scope_lt hscope) hvariants
  refine ⟨_, _, named, hget, rfl, rfl, by rw [hbegun.options], ⟨v, ?_⟩, hentries, ?_⟩
  · exact (bind_of_ok hbegin).trans ((bind_of_ok htag).trans hnamed)
  refine hreflects.imp fun named variant h => ?_
  obtain ⟨before, after, hbefore, hrun, hboth, hlt, hafter, hreflects⟩ := h
  have hmid := (hbt.trans hbefore).trans hboth
  refine ⟨after, ⟨hmid.valid, hlt, ?_, fun id hempty => ?_⟩, ?_⟩
  · exact (hafter.trans hvw).precedes.trans hend
  -- what is empty in the middle was empty at the beginning, or is the slot of the block
  · have hlt' := hmid.filled id.index hempty
    obtain ⟨more, hmore⟩ := hmid.slots
    rw [hmore, Array.getElem?_append_left hlt', hbegun.getElem?_slots] at hempty
    split at hempty
    · next heq => exact Or.inl (congrArg TypeId.mk (heq.trans hbegun.slot_eq.symm))
    · exact Or.inr hempty
  · exact hreflects.congr rfl (hvw.precedes.trans hend).emptyTuple

/-- The entries of a run account for the variants of an enum: in their order, each variant says of
its payload what is seen behind the slot to which the run has resolved the name of its entry, unless
something on the way there was being compiled when the enum was. -/
structure AccountsFor (u : Session) (e : EnumLayout) : Prop where
  shape : e.shape = r.body.shape
  target : e.target = r.body.target.getD r.before.options.defaultTagField
  variants : ∃ named t, r.payloads r.before = .ok named t ∧ named.map Prod.fst = r.body.entries ∧
    List.Forall₂ (fun named variant =>
      (∀ other, u.arena.LeadsTo named.2 other → ¬r.InProgress other) →
        Reflects u.arena u.emptyTuple e.shape e.target named.1 named.2 variant) named e.variants

/-- **The variants of an enum are accounted for** in every later session. -/
theorem accountsFor {u : Session} (hlater : Precedes r.after u) {type : CompiledType}
    {e : EnumLayout} (hid : u.arena.get? r.slot = some type) (hl : type.layout = .enum e) :
    r.AccountsFor u e := by
  obtain ⟨found, e', named, hfound, hl', hshape, htarget, ⟨t, ht⟩, hentries, hvariants⟩ :=
    r.exists_variants
  obtain rfl := Option.some.inj ((hlater.arena.get? _ _ hfound).symm.trans hid)
  obtain rfl := Layout.enum.inj (hl.symm.trans hl')
  refine ⟨hshape, htarget, named, t, ht, hentries, hvariants.imp fun named variant h hdone => ?_⟩
  obtain ⟨s, hmeets, hreflects⟩ := h
  have hprecedes := hmeets.precedes.trans hlater
  refine hreflects.congr ?_ hlater.emptyTuple
  unfold structBehind?
  rw [hprecedes.arena.peel?_eq (hmeets.get?_eq hprecedes hdone)]

/-- A discriminant that a variant says to be declared is declared by its payload, in every later
session. -/
theorem declares {u : Session} (hlater : Precedes r.after u) {type : CompiledType} {e : EnumLayout}
    (hget : u.arena.get? r.slot = some type) (hl : type.layout = .enum e) {variant : VariantLayout}
    (hvariant : variant ∈ e.variants)
    (hflag : variant.embeddedTag = true ∨ variant.declaresTarget = true) :
    ∃ body, structBehind? u.arena variant.payload = some body ∧
      declared? e.shape e.target body = some variant.dispatch := by
  obtain ⟨found, e', named, hfound, hl', -, -, -, -, hvariants⟩ := r.exists_variants
  obtain rfl := Option.some.inj ((hlater.arena.get? _ _ hfound).symm.trans hget)
  obtain rfl := Layout.enum.inj (hl.symm.trans hl')
  obtain ⟨i, hi, hfound⟩ := List.getElem_of_mem hvariant
  have hentry := hvariants.get (hvariants.length_eq ▸ hi) hi
  generalize named.get _ = pair at hentry
  obtain ⟨entry, raw⟩ := pair
  rw [List.get_eq_getElem, hfound] at hentry
  obtain ⟨t, hmeets, hreflects⟩ := hentry
  cases hseen : (structBehind? t.arena raw).bind (declared? e.shape e.target) with
  | none =>
    -- nothing was declared, so the variant does not say so
    obtain ⟨-, hembedded, hdeclares⟩ := hreflects.undeclared hseen
    rw [hembedded, hdeclares] at hflag
    simp at hflag
  | some literal =>
    obtain ⟨hdispatch, -⟩ := hreflects.declared literal hseen
    obtain ⟨body, hbody, hliteral⟩ := Option.bind_eq_some_iff.1 hseen
    have hnumbered : body.Numbered := hmeets.valid.numbered hbody
    -- a body that declares something is not empty
    have hraw : variant.payload = raw := by
      refine hreflects.payload fun _ other hother hempty => ?_
      obtain rfl := Option.some.inj (hbody.symm.trans hother)
      rw [declared?_of_empty (hnumbered.empty hempty).1] at hliteral
      cases hliteral
    refine ⟨body, ?_, by rw [hliteral, hdispatch]⟩
    rw [hraw]
    exact structBehind?_of_extends (hmeets.precedes.trans hlater).arena hbody

end EnumRun

end Wireform.Session
