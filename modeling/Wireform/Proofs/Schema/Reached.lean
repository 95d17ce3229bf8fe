import Wireform.Proofs.Codec.Reads
import Wireform.Proofs.Session.Closed
import Wireform.Schema

/-!
# The schemas that can be reached

A schema is reached by compiling definitions and then resolving any texts and
references, some of which may fail. All such schemas are closed sessions in which
every definition of the top level is entered.

* `Reached.encodeInto_length`: encodings lie between the bounds of their types.
* `Reached.resolution_failed`: a resolution that fails leaves the schema as it was.
* `Reached.wellFormed`: what all this says of slots, namespaces, entries and codecs.
-/

namespace Wireform

namespace Session

/-- Everything that refers to a slot or a namespace refers to one that is there, nothing is being
compiled, and every definition of the top level that is a type has been compiled. -/
structure WellFormed (s : Session) : Prop where
  filled : ∀ id : TypeId, id.index < s.arena.size → ∃ type, s.arena.get? id = some type
  references : ∀ id type, s.arena.get? id = some type → ∀ part ∈ type.layout.references,
    ∃ found, s.arena.get? part = some found
  namespaces : ∀ id type scope, s.arena.get? id = some type → type.scope = some scope →
    scope.index < s.scopes.size
  parents : ∀ (i : ℕ) scope parent, s.scopes[i]? = some scope → scope.parent = some parent →
    parent.index < s.scopes.size
  entries : ∀ (i : ℕ) scope key id, s.scopes[i]? = some scope →
    (key, Entry.compiled id) ∈ scope.entries → ∃ type, s.arena.get? id = some type
  unlocked : ∀ (i : ℕ) scope key slot inner, s.scopes[i]? = some scope →
    (key, Entry.locked slot inner) ∉ scope.entries
  emptyTuple : ∀ id, s.emptyTuple = some id → ∃ type, s.arena.get? id = some type
  depth : s.depth = 0
  compiled : ∀ name definition, (s.scope root).definitions.get? name = some definition →
    ¬definition.IsTemplate → ∃ id, (s.scope root).entries.get? name = some (.compiled id)

/-- A closed session in which every definition of the top level is entered. -/
structure Complete (s : Session) : Prop extends Closed s where
  known : ∀ name ∈ s.topLevelNames, ∃ entry, (s.scope root).entries.get? name = some entry

variable {s t : Session}

theorem Complete.later (h : s.Complete) (ht : t.Closed) (hst : Persists s t) : t.Complete where
  toClosed := ht
  known := by
    intro name hname
    rw [topLevelNames, hst.definitions h.root_lt] at hname
    obtain ⟨entry, he⟩ := h.known name hname
    exact ⟨entry, hst.entry h.root_lt he⟩

theorem wellFormed_of_complete (h : s.Complete) : s.WellFormed where
  filled := fun id hid => h.get? hid
  references :=
    fun id type hid part hpart => h.get? ((h.types id type hid).builds.references part hpart)
  namespaces := fun id type scope hid hscope => (h.types id type hid).scope scope hscope
  parents := by
    intro i scope parent hi hparent
    have hlt := (h.scopes i scope hi).parent parent hparent
    exact Nat.lt_trans hlt (Array.getElem?_eq_some_iff.1 hi).1
  entries := fun i scope key id hi he => h.get? ((h.scopes i scope hi).entries key _ he)
  unlocked := h.unlocked
  emptyTuple := by
    intro id hid
    obtain ⟨type, ht, -⟩ := h.toValid.emptyTuple id hid
    exact ⟨type, ht⟩
  depth := h.depth
  compiled := by
    intro name definition hd htemplate
    obtain ⟨entry, he⟩ := h.known name (Assoc.mem_keys (Assoc.mem_of_get? hd))
    -- a template would be deferred, and nothing is locked
    have hroot := getElem?_scopes h.root_lt
    cases entry with
    | compiled id => exact ⟨id, he⟩
    | deferred template =>
      exact absurd
        ((h.scopes _ _ hroot).templates name template (Assoc.mem_of_get? he) definition hd)
        htemplate
    | locked slot inner =>
      exact absurd (Assoc.mem_of_get? he) (h.unlocked _ _ name slot inner hroot)

/-! ### Calls -/

theorem lookup?_root {name : String} (h : name ∈ s.topLevelNames) :
    s.lookup? root name false = some root := by
  have hknows : s.knows root name = true := by
    unfold knows
    rw [Bool.or_eq_true]
    refine Or.inr ?_
    rw [Assoc.contains, Option.isSome_iff_ne_none]
    exact fun hnone => (Assoc.get?_eq_none_iff _ _).1 hnone h
  simp [lookup?, lookupWithin?, hknows]

/-- Compiling a name of the top level enters it. -/
theorem ensures_compileName (hs : s.Closed) (levels : ℕ) {name : String}
    (hname : name ∈ s.topLevelNames) :
    Ensures s (compileName levels name)
      (fun _ t => t.Closed ∧ Persists s t ∧ ∃ entry, (t.scope root).entries.get? name = some entry)
      fun stop t => t = s ∧ stop.Ordinary := by
  have hstep : s.Sound (nameStep levels name)
      fun _ t => ∃ entry, (t.scope root).entries.get? name = some entry := by
    refine Sound.get_bind ?_
    rw [lookup?_root hname]
    refine Sound.bind (sound_resolveEntry (sound_resolveType levels) hs.toValid hs.root_lt name)
      fun r t hst hr => Sound.pure hst.valid ?_
    cases r with
    | template template => exact ⟨_, hr⟩
    | type id =>
      rcases hr.2 with h | ⟨inner, h⟩
      · exact ⟨_, h⟩
      · exact ⟨_, h⟩
  refine Ensures.mono (ensures_atomically hs hstep) ?_ fun _ _ h => h
  rintro _ t ⟨ht, hst, u, hu, rfl⟩
  exact ⟨ht, hst, hu⟩

theorem ensures_compileNames (hs : s.Closed) (levels : ℕ) (names : List String)
    (hnames : ∀ name ∈ names, name ∈ s.topLevelNames) :
    Ensures s (names.forM (compileName levels))
      (fun _ t => t.Closed ∧ Persists s t ∧
        ∀ name ∈ names, ∃ entry, (t.scope root).entries.get? name = some entry)
      fun _ _ => True := by
  induction names generalizing s with
  | nil => exact ⟨hs, Persists.refl s, by simp⟩
  | cons name rest ih =>
    change Ensures s (compileName levels name >>= fun _ => rest.forM (compileName levels)) _ _
    refine Ensures.bind
      (Ensures.mono (ensures_compileName hs levels (hnames name List.mem_cons_self))
      (fun _ _ h => h) fun _ _ _ => trivial) ?_
    rintro _ t ⟨ht, hst, entry, he⟩
    -- the other names are still defined
    have hrest : ∀ other ∈ rest, other ∈ t.topLevelNames := by
      intro other ho
      rw [topLevelNames, hst.definitions hs.root_lt]
      exact hnames other (List.mem_cons_of_mem _ ho)
    refine Ensures.mono (ih ht hrest) ?_ fun _ _ h => h
    rintro _ u ⟨hu, htu, hall⟩
    refine ⟨hu, hst.trans htu, fun other ho => ?_⟩
    rcases List.mem_cons.1 ho with rfl | ho
    · exact ⟨entry, htu.entry ht.root_lt he⟩
    · exact hall other ho

/-- A reference that is resolved leads to a slot. -/
theorem ensures_resolveRef (hs : s.Closed) (levels : ℕ) (r : TypeRef) :
    Ensures s (resolveRef levels r)
      (fun id t => t.Closed ∧ Persists s t ∧ id.index < t.arena.size)
      fun stop t => t = s ∧ stop.Ordinary := by
  have hstep := sound_resolveType levels s root r [] hs.toValid hs.root_lt
  refine Ensures.mono (ensures_atomically hs hstep) ?_ fun _ _ h => h
  rintro id t ⟨ht, hst, u, hu, rfl⟩
  exact ⟨ht, hst, hu⟩

end Session

/-- A codec that never comes upon an empty slot. -/
structure TypeCodec.Filled (codec : TypeCodec) : Prop where
  encodeInto : ∀ value buffer stop after, codec.encodeInto value buffer =
    .error stop after → stop.Filled
  encode : ∀ value stop, codec.encode value = .error stop → stop.Filled
  decodePrefix : ∀ bytes stop, codec.decodePrefix bytes = .error stop → stop.Filled
  decode : ∀ bytes stop, codec.decode bytes = .error stop → stop.Filled

namespace Schema

/-- The codecs that a schema hands out: for a slot, for a name, for every name and for a text. -/
inductive HandsOut (schema : Schema) : TypeCodec → Prop where
  | slot {id : TypeId} {codec : TypeCodec} (h : schema.codec? id = some codec) :
      HandsOut schema codec
  | name {name : String} {codec : TypeCodec} (h : schema.get? name = some codec) :
      HandsOut schema codec
  | listed {name : String} {codec : TypeCodec} (h : (name, codec) ∈ schema.types) :
      HandsOut schema codec
  | text {text : String} {codec : TypeCodec} (h : (schema.resolve text).1 = .ok codec) :
      HandsOut schema codec

/-- The schemas to which some definitions lead, whatever is resolved later. -/
inductive Reached (definitions : List (String × Definition)) (options : Options) :
    Schema → Prop where
  | compile {schema : Schema} (h : compile definitions options = .ok schema) :
      Reached definitions options schema
  | resolve {schema : Schema} (h : Reached definitions options schema) (text : String) :
      Reached definitions options (schema.resolve text).2
  | resolveRef {schema : Schema} (h : Reached definitions options schema) (r : TypeRef) :
      Reached definitions options (schema.resolveRef r).2

/-- Of several names the first is defined first. -/
theorem exists_of_defineAll_cons {s t : Session} {first : String × Definition}
    {rest : List (String × Definition)} (h : defineAll s (first :: rest) = .ok t) :
    ∃ u, s.define first.1 first.2 = .ok u ∧ defineAll u rest = .ok t := by
  unfold defineAll at h
  rw [List.foldlM_cons] at h
  cases hd : s.define first.1 first.2 with
  | error e =>
    simp only [hd] at h
    cases h
  | ok u =>
    simp only [hd] at h
    exact ⟨u, rfl, h⟩

theorem closed_defineAll {s t : Session} {definitions : List (String × Definition)} (hs : s.Closed)
    (h : defineAll s definitions = .ok t) : t.Closed := by
  induction definitions generalizing s with
  | nil =>
    obtain rfl := Except.ok.inj h
    exact hs
  | cons first rest ih =>
    obtain ⟨u, hd, hrest⟩ := exists_of_defineAll_cons h
    exact ih (Session.closed_define hs hd) hrest

/-- A compilation that succeeds defines all names and then compiles them. -/
theorem exists_of_compile {definitions : List (String × Definition)} {options : Options}
    {schema : Schema} (h : compile definitions options = .ok schema) :
    ∃ s, defineAll (.initial options) definitions = .ok s ∧
      compileAll s = .ok () schema.session := by
  unfold compile at h
  cases hd : defineAll (.initial options) definitions with
  | error e =>
    simp only [hd] at h
    cases h
  | ok s =>
    refine ⟨s, rfl, ?_⟩
    simp only [hd, Except.mapError, bind, Except.bind] at h
    split at h
    · next t ht =>
      obtain rfl := Except.ok.inj h
      exact ht
    · cases h

theorem complete_compile {definitions : List (String × Definition)} {options : Options}
    {schema : Schema} (h : compile definitions options = .ok schema) : schema.session.Complete := by
  obtain ⟨s, hd, ht⟩ := exists_of_compile h
  have hs := closed_defineAll (Session.closed_initial options) hd
  have hrun := Session.ensures_compileNames hs maxLevels s.topLevelNames fun _ h => h
  obtain ⟨hclosed, hlater, hall⟩ := hrun.of_ok ht
  refine ⟨hclosed, fun name hname => hall name ?_⟩
  rwa [Session.topLevelNames, hlater.definitions hs.root_lt] at hname

/-- A reference that is resolved leads to a slot; one that is not leaves the schema as it was. -/
theorem resolveRef_spec {schema : Schema} (h : schema.session.Complete) (r : TypeRef) :
    (∃ id, (schema.resolveRef r).1 = .ok id ∧ (schema.resolveRef r).2.session.Complete ∧
      id.index < (schema.resolveRef r).2.session.arena.size) ∨
    ∃ stop, schema.resolveRef r = (.error stop, schema) ∧ stop.Ordinary := by
  have hrun := Session.ensures_resolveRef h.toClosed maxLevels r
  unfold Ensures at hrun
  unfold resolveRef outcome
  split at hrun
  · next id t ht =>
    rw [ht]
    exact Or.inl ⟨id, rfl, h.later hrun.1 hrun.2.1, hrun.2.2⟩
  · next stop t ht =>
    rw [ht]
    obtain ⟨rfl, hordinary⟩ := hrun
    exact Or.inr ⟨stop, rfl, hordinary⟩

/-- A text that is no reference is malformed. -/
theorem parse_ordinary {text : String} {parameters : List String} {error : CompileError}
    (h : TypeRef.parse text parameters = .error error) : (Stop.failure error).Ordinary := by
  unfold TypeRef.parse Parsing.whole at h
  split at h
  · cases h
    exact fun text h => nomatch h
  · dsimp only at h
    split at h
    · cases h
    · cases h
      exact fun text h => nomatch h

theorem resolve_spec {schema : Schema} (h : schema.session.Complete) (text : String) :
    (∃ codec, (schema.resolve text).1 = .ok codec ∧ (schema.resolve text).2.session.Complete) ∨
    ∃ stop, schema.resolve text = (.error stop, schema) ∧ stop.Ordinary := by
  unfold resolve
  split
  · next error herror => exact Or.inr ⟨_, rfl, parse_ordinary herror⟩
  · next r hr =>
    rcases resolveRef_spec h r with ⟨id, hid, hcomplete, hlt⟩ | ⟨stop, heq, hordinary⟩
    · obtain ⟨type, htype⟩ := hcomplete.get? hlt
      split
      · next heq => rw [heq] at hid; cases hid
      · next id' schema' heq =>
        rw [heq] at hid hcomplete htype
        obtain rfl := Except.ok.inj hid
        refine Or.inl ⟨⟨schema'.session.arena, id', type⟩, ?_⟩
        simp only [codec?, htype, Option.map_some]
        exact ⟨trivial, hcomplete⟩
    · rw [heq]
      exact Or.inr ⟨stop, rfl, hordinary⟩

/-- The codec of a text is that of a slot of the schema after it. -/
theorem codec?_of_resolve {schema : Schema} {text : String} {codec : TypeCodec}
    (h : (schema.resolve text).1 = .ok codec) :
    ∃ id, (schema.resolve text).2.codec? id = some codec := by
  unfold resolve at h ⊢
  split at h
  · cases h
  · next r hr =>
    split at h
    · cases h
    · next id after hid =>
      cases hslot : after.codec? id with
      | none =>
        simp only [hslot] at h
        cases h
      | some found =>
        simp only [hslot] at h
        cases h
        exact ⟨id, hslot⟩

/-- A chain of bytes: a type that refers to itself. -/
def chain : List (String × Definition) :=
  [("Chain", .struct (.object [.typed (some "value") (.named "u8"),
    .typed (some "next") (TypeRef.named "Chain").orNull]))]

/-- A chain of two bytes. -/
def twoLinks : Json :=
  .object [("value", .ofUInt64 7), ("next", .object [("value", .ofUInt64 8), ("next", .null)])]

/-- The schema of chains. -/
def chainSchema : Schema := (compile chain {}).toOption.get (by decide +kernel)

theorem reached_chain : Reached chain {} chainSchema := .compile (eq_ok_get _)

/-- The list of a type that is not defined. -/
def missingList : TypeRef := .ofKind (.named "Array" (some [[.type (.named "Missing")]]))

/-- A pair of a byte and a number that may be missing. -/
def record : List (String × Definition) :=
  [("Pair", .struct (.tuple [.typed none (.named "u8"), .typed none (TypeRef.named "u16").orNull]))]

/-- A pair without the number. -/
def firstOnly : Json := .array [.ofUInt64 7, .null]

/-- The schema of such pairs. -/
def recordSchema : Schema := (compile record {}).toOption.get (by decide +kernel)

theorem reached_record : Reached record {} recordSchema := .compile (eq_ok_get _)

namespace Reached

variable {definitions : List (String × Definition)} {options : Options} {schema : Schema}

theorem complete (h : Reached definitions options schema) : schema.session.Complete := by
  induction h with
  | compile h => exact complete_compile h
  | resolve h text ih =>
    rcases resolve_spec ih text with ⟨codec, -, hcomplete⟩ | ⟨stop, heq, -⟩
    · exact hcomplete
    · rw [heq]
      exact ih
  | resolveRef h r ih =>
    rcases resolveRef_spec ih r with ⟨id, -, hcomplete, -⟩ | ⟨stop, heq, -⟩
    · exact hcomplete
    · rw [heq]
      exact ih

theorem grounded (h : Reached definitions options schema) : schema.session.arena.Grounded :=
  ⟨fun _ hid => h.complete.get? hid, fun id type hid => (h.complete.types id type hid).builds⟩

/-- A codec of a schema is a slot of its arena with the type in it. -/
theorem codec?_eq {id : TypeId} {codec : TypeCodec} (h : schema.codec? id = some codec) :
    ∃ type, schema.session.arena.get? id = some type ∧
      codec = ⟨schema.session.arena, id, type⟩ := by
  obtain ⟨type, htype, rfl⟩ := Option.map_eq_some_iff.1 h
  exact ⟨type, htype, rfl⟩

/-- **What an encoding appends lies between the bounds of its type.** -/
theorem encodeInto_length (h : Reached definitions options schema) {id : TypeId} {codec : TypeCodec}
    (hcodec : schema.codec? id = some codec) {value : Json} {buffer after : Array UInt8}
    (hrun : codec.encodeInto value buffer = .ok () after) :
    buffer.size + schema.session.arena.minSize id ≤ after.size ∧
      ∀ greatest, codec.maxSize = .bounded greatest → after.size ≤ buffer.size + greatest := by
  obtain ⟨type, htype, rfl⟩ := codec?_eq hcodec
  have hid := Arena.lt_size_of_get? _ htype
  obtain ⟨n, hn, hleast, hgreatest⟩ := (h.grounded.writes _ hid value buffer).of_ok hrun
  refine ⟨?_, fun greatest hmax => ?_⟩
  · have hle := (h.grounded.minSize_le_shortest id).trans hleast
    rw [Nat.cast_le] at hle
    omega
  · rw [Arena.greatest_eq htype] at hgreatest
    change type.maxSize = _ at hmax
    rw [hmax, Size.value_bounded, Nat.cast_le] at hgreatest
    omega

/-- Two bytes at least, and four at most. -/
theorem record_length : ∃ schema codec after, Reached record {} schema ∧
    schema.codec? ⟨29⟩ = some codec ∧ codec.maxSize = .bounded 4 ∧
    codec.encodeInto firstOnly #[] = .ok () after ∧
    schema.session.arena.minSize ⟨29⟩ ≤ after.size ∧ after.size ≤ 4 := by
  have hfound : ((recordSchema.codec? ⟨29⟩).map fun codec =>
      (codec.maxSize, (codec.encode firstOnly).toOption)) = some (.bounded 4, some [0, 7]) := by
    decide +kernel
  obtain ⟨codec, hcodec, hpair⟩ := Option.map_eq_some_iff.1 hfound
  obtain ⟨hmax, hbytes⟩ := Prod.mk.inj hpair
  cases hrun : codec.encodeInto firstOnly #[] with
  | error stop after =>
    simp [TypeCodec.encode, hrun, Except.toOption] at hbytes
  | ok _ after =>
    obtain ⟨hleast, hgreatest⟩ := encodeInto_length reached_record hcodec hrun
    simp only [Array.size_empty, Nat.zero_add] at hleast hgreatest
    exact ⟨recordSchema, codec, after, reached_record, hcodec, hmax, hrun, hleast, hgreatest 4 hmax⟩

/-- **A failed resolution leaves no trace.** -/
theorem resolution_failed (h : Reached definitions options schema) :
    (∀ text stop, (schema.resolve text).1 = .error stop → (schema.resolve text).2 = schema) ∧
    (∀ r stop, (schema.resolveRef r).1 = .error stop → (schema.resolveRef r).2 = schema) ∧
    schema.session.journal = [] ∧ schema.session.depth = 0 := by
  refine ⟨fun text stop hstop => ?_, fun r stop hstop => ?_, h.complete.journal, h.complete.depth⟩
  · rcases resolve_spec h.complete text with ⟨codec, hok, -⟩ | ⟨stop', heq, -⟩
    · rw [hok] at hstop
      cases hstop
    · rw [heq]
  · rcases resolveRef_spec h.complete r with ⟨id, hok, -⟩ | ⟨stop', heq, -⟩
    · rw [hok] at hstop
      cases hstop
    · rw [heq]

/-- A list of a type that is not there: its slot is taken before its element fails. -/
theorem list_resolution_failed : ∃ schema, Reached chain {} schema ∧
    (∃ stop inside, Session.resolveType maxLevels Session.root missingList [] schema.session =
      .error stop inside ∧ schema.session.arena.size < inside.arena.size) ∧
    (∃ stop, (schema.resolve "Array<Missing>").1 = .error stop) ∧
    (schema.resolve "Array<Missing>").2 = schema := by
  have hgrows : (match Session.resolveType maxLevels Session.root missingList []
      chainSchema.session with
    | .error _ inside => decide (chainSchema.session.arena.size < inside.arena.size)
    | .ok _ _ => false) = true := by decide +kernel
  have hinside : ∃ stop inside, Session.resolveType maxLevels Session.root missingList []
      chainSchema.session = .error stop inside ∧
        chainSchema.session.arena.size < inside.arena.size := by
    split at hgrows
    · next stop inside hrun => exact ⟨stop, inside, hrun, of_decide_eq_true hgrows⟩
    · cases hgrows
  have hfails : (chainSchema.resolve "Array<Missing>").1.toOption.isSome = false := by
    decide +kernel
  cases hrun : (chainSchema.resolve "Array<Missing>").1 with
  | error stop =>
    exact ⟨chainSchema, reached_chain, hinside, ⟨stop, hrun⟩,
      (resolution_failed reached_chain).1 _ stop hrun⟩
  | ok codec =>
    rw [hrun] at hfails
    cases hfails

theorem filled_of_codec? (h : Reached definitions options schema) {id : TypeId} {codec : TypeCodec}
    (hcodec : schema.codec? id = some codec) : codec.Filled := by
  obtain ⟨type, htype, rfl⟩ := codec?_eq hcodec
  have hid := Arena.lt_size_of_get? _ htype
  have hencode : ∀ value buffer stop after, schema.session.arena.encode id value buffer =
      .error stop after → stop.Filled := fun value buffer _ _ hrun =>
    (h.grounded.writes _ hid value buffer).of_error hrun
  have hdecode : ∀ c stop after, schema.session.arena.decode id c = .error stop after →
      stop.Filled := fun c _ _ hrun => (h.grounded.reads _ hid c).of_error hrun
  have hprefix : ∀ bytes stop, TypeCodec.decodePrefix ⟨schema.session.arena, id, type⟩ bytes =
      .error stop → stop.Filled := by
    intro bytes stop hrun
    unfold TypeCodec.decodePrefix at hrun
    split at hrun
    · cases hrun
    · next stop' after hfound =>
      cases hrun
      exact hdecode _ _ _ hfound
  refine ⟨hencode, fun value stop hrun => ?_, hprefix, fun bytes stop hrun => ?_⟩
  · unfold TypeCodec.encode at hrun
    split at hrun
    · cases hrun
    · next stop' after hfound =>
      cases hrun
      exact hencode _ _ _ _ hfound
  · unfold TypeCodec.decode at hrun
    cases hfound : TypeCodec.decodePrefix ⟨schema.session.arena, id, type⟩ bytes with
    | error stop' =>
      rw [hfound] at hrun
      cases hrun
      exact hprefix _ _ hfound
    | ok found =>
      -- only the test for bytes left over remains
      rw [hfound] at hrun
      change (if found.2 = bytes.length then Except.ok found.1 else _) = _ at hrun
      split at hrun
      · cases hrun
      · cases hrun
        exact fun _ _ heq => nomatch heq

/-- However a codec is asked for, it comes from a slot, of the schema or of one that it leads to. -/
theorem filled_of_handsOut (h : Reached definitions options schema) {codec : TypeCodec}
    (hcodec : schema.HandsOut codec) : codec.Filled := by
  cases hcodec with
  | slot hslot => exact h.filled_of_codec? hslot
  | name hname =>
    obtain ⟨id, -, hslot⟩ := Option.bind_eq_some_iff.1 hname
    exact h.filled_of_codec? hslot
  | listed hlisted =>
    obtain ⟨name, -, hname⟩ := List.mem_filterMap.1 hlisted
    obtain ⟨found, hfound, heq⟩ := Option.bind_eq_some_iff.1 hname
    obtain ⟨id, -, hslot⟩ := Option.bind_eq_some_iff.1 hfound
    cases heq
    exact h.filled_of_codec? hslot
  | @text text codec htext =>
    obtain ⟨id, hslot⟩ := codec?_of_resolve htext
    exact (h.resolve text).filled_of_codec? hslot

/-- **A reached schema is well formed.** So its codecs meet no empty slot, and neither does a
text that is resolved in it. -/
theorem wellFormed (h : Reached definitions options schema) :
    schema.session.WellFormed ∧ (∀ codec, schema.HandsOut codec → codec.Filled) ∧
    ∀ text stop, (schema.resolve text).1 = .error stop → stop.Ordinary := by
  refine ⟨Session.wellFormed_of_complete h.complete, fun _ => h.filled_of_handsOut,
    fun text stop hstop => ?_⟩
  rcases resolve_spec h.complete text with ⟨codec, hok, -⟩ | ⟨stop', heq, hordinary⟩
  · rw [hok] at hstop
    cases hstop
  · rw [heq] at hstop
    cases hstop
    exact hordinary

theorem chain_wellFormed : ∃ schema, Reached chain {} schema ∧ schema.session.WellFormed ∧
    ∃ id, (schema.session.scope Session.root).entries.get? "Chain" = some (.compiled id) := by
  have hdefined : (chainSchema.session.scope Session.root).definitions.get? "Chain" =
      chain.head?.map Prod.snd := rfl
  have hformed := (wellFormed reached_chain).1
  exact ⟨chainSchema, reached_chain, hformed, hformed.compiled "Chain" _ hdefined id⟩

end Reached

end Schema

end Wireform
