import Wireform.Proofs.Meaning.Resolution
import Wireform.Proofs.Schema.Recursion

/-!
# Whole compilations follow the definitions

Before anything is compiled, the slots that are there stand for the standard types and the only
namespace is the root. Compiling a name makes the root go on by one step, after which the session
follows the definitions still, so a schema follows them too. In which order the names are compiled
plays no part in it: only what the definitions say of a name does.

* `follows_declared`: the session in which the names are defined.
* `tracks_nameStep`: one name.
* `follows_compile`: all names of a schema.
-/

namespace Wireform

namespace Session

/-- The session in which these names are defined and nothing is compiled. -/
def declared (options : Options) (definitions : Assoc Definition) : Session :=
  { initial options with scopes := #[⟨none, definitions, rootEntries, []⟩] }

theorem declared_scope {options : Options} {definitions : Assoc Definition} {i : ScopeId}
    (hi : i.index < (declared options definitions).scopes.size) :
    i = root ∧ (declared options definitions).scope i = ⟨none, definitions, rootEntries, []⟩ := by
  obtain ⟨index⟩ := i
  obtain rfl := Nat.lt_one_iff.1 hi
  exact ⟨rfl, rfl⟩

/-- A name is defined if it is new. -/
theorem define_declared {options : Options} {definitions : Assoc Definition} {name : String}
    {definition : Definition} {t : Session}
    (h : (declared options definitions).define name definition = .ok t) :
    t = declared options (definitions ++ [(name, definition)]) ∧ name ∉ definitions.keys ∧
    name ∉ rootEntries.keys := by
  obtain ⟨rfl, hnew⟩ := eq_of_define h
  exact ⟨rfl, hnew⟩

theorem define_of_new (options : Options) {definitions : Assoc Definition} {name : String}
    (definition : Definition) (hnew : name ∉ definitions.keys)
    (hstandard : name ∉ rootEntries.keys) :
    (declared options definitions).define name definition =
      .ok (declared options (definitions ++ [(name, definition)])) := by
  cases h : (declared options definitions).define name definition with
  | ok t => exact congrArg Except.ok (define_declared h).1
  | error error =>
    unfold define at h
    dsimp only at h
    split at h
    · next hknown =>
      simp only [Bool.or_eq_true, Assoc.contains, Option.isSome_iff_ne_none, ne_eq,
        Assoc.get?_eq_none_iff, not_not] at hknown
      exact absurd hknown (not_or.2 ⟨hnew, hstandard⟩)
    · cases h

end Session

namespace Meaning

open Session Schema

variable {w : Source} {s t : Session} {g : Legend} {definitions : Assoc Definition} {name : String}

/-- **Names that can be defined** are all different, and none of them is a standard one. -/
theorem defineAll_declared {options : Options} {before : Assoc Definition}
    (hbefore : before.keys.Nodup) (h : defineAll (declared options before) definitions = .ok t) :
    t = declared options (before ++ definitions) ∧
      (before ++ definitions).keys.Nodup ∧ ∀ name ∈ definitions.keys, name ∉ rootEntries.keys := by
  induction definitions generalizing before with
  | nil =>
    obtain rfl := Except.ok.inj h
    rw [List.append_nil]
    exact ⟨rfl, hbefore, nofun⟩
  | cons first rest ih =>
    obtain ⟨u, hd, hrest⟩ := exists_of_defineAll_cons h
    obtain ⟨rfl, hnew, hstandard⟩ := define_declared hd
    have hnodup : (before ++ [first]).keys.Nodup := by
      unfold Assoc.keys at hbefore hnew ⊢
      rw [List.map_append]
      refine List.nodup_append.2 ⟨hbefore, List.nodup_singleton _, ?_⟩
      rintro other hother _ hmem rfl
      obtain rfl : other = first.1 := List.mem_singleton.1 hmem
      exact hnew hother
    obtain ⟨ht, hall, hnames⟩ := ih hnodup hrest
    rw [List.append_assoc, List.singleton_append] at ht hall
    exact ⟨ht, hall, List.forall_mem_cons.2 ⟨hstandard, hnames⟩⟩

theorem declared_of_defineAll {options : Options}
    (h : defineAll (.initial options) definitions = .ok t) :
    t = declared options definitions ∧ (Assoc.keys definitions).Nodup ∧
      ∀ name ∈ Assoc.keys definitions, name ∉ rootEntries.keys := by
  have hnone : (Assoc.keys ([] : Assoc Definition)).Nodup := List.nodup_nil
  exact defineAll_declared hnone h

/-- Names that are all different, and none of them a standard one, can be defined. -/
theorem defineAll_of_new (options : Options) (before : Assoc Definition)
    (hnodup : (before ++ definitions).keys.Nodup)
    (hstandard : ∀ name ∈ definitions.keys, name ∉ rootEntries.keys) :
    defineAll (declared options before) definitions =
      .ok (declared options (before ++ definitions)) := by
  induction definitions generalizing before with
  | nil =>
    rw [List.append_nil]
    rfl
  | cons first rest ih =>
    obtain ⟨hfirst, hrest⟩ := List.forall_mem_cons.1 hstandard
    have hnew : first.1 ∉ before.keys := by
      unfold Assoc.keys at hnodup ⊢
      rw [List.map_append, List.map_cons] at hnodup
      exact fun hmem => (List.nodup_append.1 hnodup).2.2 _ hmem _ List.mem_cons_self rfl
    have hdefined := define_of_new options first.2 hnew hfirst
    rw [← List.singleton_append, ← List.append_assoc] at hnodup ⊢
    change ((declared options before).define first.1 first.2 >>= fun s => defineAll s rest) = _
    rw [hdefined]
    exact ih _ hnodup hrest

/-! ### Before anything is compiled -/

open Classical in
/-- What is there before anything is compiled: the root has begun and made nothing yet. -/
noncomputable def Legend.start : Legend where
  node id := .standard id
  place _ := .root
  made := Function.update (fun _ => none) .root (some 0)

@[simp]
theorem Legend.start_made : Legend.start.made .root = some 0 := by
  simp only [Legend.start, Function.update_self]

open Classical in
theorem Legend.eq_root_of_start_made {node : Node} (h : (Legend.start.made node).isSome) :
    node = .root := by
  by_contra hne
  simp [Legend.start, Function.update_of_ne hne] at h

theorem get?_of_mem_rootEntries {key : String} {entry : Entry} (h : (key, entry) ∈ rootEntries) :
    rootEntries.get? key = some entry := by
  have hnodup : rootEntries.keys.Nodup := by decide
  exact Assoc.get?_of_mem hnodup h

/-- A standard entry is what its key stands for. -/
theorem enters_standard (w : Source) {key : String} {entry : Entry}
    (h : (key, entry) ∈ rootEntries) :
    w.Enters (declared w.options definitions) Legend.start .root key entry := by
  have hget := get?_of_mem_rootEntries h
  rcases mem_rootEntries h with ⟨i, hi, rfl⟩ | ⟨builtin, rfl⟩
  · have hstandard : standard? .root key = some (.type (.standard ⟨i⟩)) := by
      simp only [standard?, hget]
    refine ⟨?_, Or.inr hstandard, fun _ => ?_⟩
    · simpa [declared, initial, Arena.size] using hi
    · rw [Source.standing?, hstandard]
      rfl
  · have hstandard : standard? .root key = some (.template (.builtin builtin)) := by
      simp only [standard?, hget]
    refine ⟨plain_of_standard (by rw [Assoc.contains, hget]; rfl), ?_⟩
    rw [Source.standing?, hstandard]
    rfl

theorem describes_standard (w : Source) {id : TypeId} {type : CompiledType}
    (h : (initial w.options).arena.get? id = some type) :
    w.Describes (declared w.options definitions) Legend.start (.standard id) type where
  scope := by
    obtain ⟨name, p, rfl⟩ := initial_type h
    exact fun _ hscope => nomatch hscope
  bound := by
    refine fun admits _ => ⟨1, fun levels hlevels => Or.inr ?_⟩
    obtain ⟨levels, rfl⟩ := Nat.exists_eq_add_of_le' hlevels
    simp only [Source.oracle, Source.sizeStep, Source.admitting, Arena.maxSize, h]
  laid := .standard h
  formed := nofun
  named := nofun

/-- **The session in which the names are defined** follows the definitions. -/
theorem follows_declared (hdefinitions : ∀ name, definitions.get? name = w.definitions.get? name) :
    w.Follows (declared w.options definitions) Legend.start where
  options := rfl
  maps := by
    refine ⟨⟨Nat.zero_lt_one, rfl⟩, fun key hkey => ?_, fun i hi => ?_, fun i hi key entry he => ?_⟩
    · change key ∈ rootEntries.keys
      by_contra hnot
      rw [Assoc.contains, (Assoc.get?_eq_none_iff _ _).2 hnot] at hkey
      cases hkey
    · rw [(declared_scope hi).2]
      exact ⟨hdefinitions, rfl, rfl⟩
    · rw [(declared_scope hi).2] at he
      exact enters_standard w he
  describes := fun _ _ hid => describes_standard w hid
  labels := by
    constructor
    case nodes => exact fun id id' _ _ heq => Node.standard.inj heq
    case places =>
      exact fun i i' hi hi' _ => (declared_scope hi).1.trans (declared_scope hi').1.symm
    case begun => exact fun _ _ hblock => by cases hblock
    case opened => exact fun _ _ => Or.inl rfl
    case entered => exact fun _ _ _ _ hmade => by cases Legend.eq_root_of_start_made hmade
    case loose => exact fun _ _ _ _ _ hmade => by cases Legend.eq_root_of_start_made hmade
    case arrays => exact fun _ _ _ _ _ _ _ heq => by cases heq
    case emptyTuple =>
      exact fun _ _ => iff_of_false (fun heq => by cases heq) (fun heq => by cases heq)
  admitted := fun _ _ hblock => by cases hblock

/-! ### One name -/

/-- Forgetting the journal changes nothing that counts. -/
theorem Source.Follows.commit (h : w.Follows s g) (hs : s.Valid) (point : Checkpoint) :
    w.Follows (s.commit point) g := by
  have hag : Agrees s g (s.commit point) g := ⟨rfl, .refl _, le_rfl, fun _ _ => rfl, fun _ _ => rfl⟩
  refine ⟨h.options, ?_, h.describes_later hag fun _ _ => Or.inl, ?_, h.admitted.same hag rfl⟩
  · exact h.maps.later hs hag (fun _ _ => .refl _)
      (fun i hle hlt => absurd hlt (Nat.not_lt_of_le hle))
      fun i hi key entry he => Or.inl ⟨hi, he⟩
  · exact h.labels.later hag (fun _ _ _ hkey => hkey) (fun _ k hk => ⟨k, le_rfl, hk⟩)
      (fun _ => Or.inl)
      (fun _ _ => Iff.rfl) (fun id hle hlt => absurd hlt (Nat.not_lt_of_le hle))
      fun i hle hlt => absurd hlt (Nat.not_lt_of_le hle)

/-- The session follows the definitions, and the root has begun. -/
def Source.Rooted (w : Source) (s : Session) : Prop := ∃ g k, w.Follows s g ∧ g.made .root = some k

theorem Source.Rooted.commit (h : w.Rooted s) (hs : s.Valid) (point : Checkpoint) :
    w.Rooted (s.commit point) := by
  obtain ⟨g, k, hfollows, hk⟩ := h
  exact ⟨g, k, hfollows.commit hs point, hk⟩

/-- A name of the top level, as it is read: a type is asked for, and a template is left as it is. -/
noncomputable def Source.readName (w : Source) (name : String) : Reading Unit :=
  match w.standing? .root name with
  | some (.type node) => do let _ ← w.ask node
  | some (.template _) => pure ()
  | none => .fail (.undefinedType name)

/-- What stands under a name of the top level may be asked for. -/
theorem Source.Clear.admits_of_standing (hclear : w.Clear) {node : Node}
    (hstanding : w.standing? .root name = some (.type node)) (hblock : node.block?.isSome) :
    w.admits node := by
  unfold Source.standing? at hstanding
  rcases Option.or_eq_some_iff.1 hstanding with hstandard | ⟨-, hdefined⟩
  · simp only [standard?] at hstandard
    split at hstandard
    · obtain rfl := Standing.type.inj (Option.some.inj hstandard)
      cases hblock
    · cases hstandard
    · cases hstandard
  · obtain ⟨definition, hdefinition, heq⟩ := Option.map_eq_some_iff.1 hdefined
    cases definition with
    | template parameters body => cases heq
    | _ =>
      obtain rfl := Standing.type.inj heq
      exact hclear.defined name _ hdefinition fun htemplate => by cases htemplate

theorem Source.Clear.answers_readName (hclear : w.Clear)
    (hknown : (w.standing? .root name).isSome) (k : ℕ) :
    Answers (fun _ => w.readName name) k := by
  obtain ⟨standing, hstanding⟩ := Option.isSome_iff_exists.1 hknown
  unfold Source.readName
  simp only [hstanding]
  cases standing with
  | type node =>
    have hask := reads_ask (hclear.admits_of_standing hstanding) k
    exact (hask.bind (.pure () k)).answers
  | template template => exact (Reads.pure () k).answers

/-- **One name** is compiled as it is read. -/
theorem tracks_nameStep (owner : Node) (hclear : w.Clear) (hs : s.Closed)
    (h : w.Follows s g) (levels : ℕ) (hname : name ∈ s.topLevelNames) (hplain : '<' ∉ name.toList) :
    (w.standing? .root name).isSome ∧
      Tracks w owner s g (fun w _ => w.readName name) (nameStep levels name)
        fun _ _ _ _ => True := by
  have hroot := h.maps.rooted.2
  obtain ⟨-, standing, hstanding⟩ :=
    h.standing?_isSome hs.toValid hplain hs.root_lt (lookup?_root hname)
  rw [hroot] at hstanding
  refine ⟨Option.isSome_of_eq_some hstanding, Tracks.get_bind ?_⟩
  rw [lookup?_root hname]
  unfold Source.readName
  cases standing with
  | type node =>
    refine Tracks.of_eq (?_ : Tracks w owner s g (fun w _ => w.ask node >>= fun _ => pure ()) _ _)
      fun admits _ => by
      simp only [Source.standing?_admitting, hstanding]
    refine (tracks_resolveEntry_type hclear (tracked_resolveType hclear levels)
      (sound_resolveType levels) hs.toValid h
      hs.root_lt hplain (hroot ▸ hstanding)).bind fun _ _ t g' hcont hfollows _ => ?_
    exact .pure hcont.advances.valid hfollows trivial
  | template template =>
    refine Tracks.of_eq (?_ : Tracks w owner s g (fun _ _ => pure ()) _ _) fun admits _ => by
      simp only [Source.standing?_admitting, hstanding]
    exact (tracks_resolveEntry_template hs.toValid h hs.root_lt (resolveType levels) hplain
      (hroot ▸ hstanding)).then_pure fun _ _ _ _ _ _ => trivial

/-- A name leaves a session that follows the definitions. -/
theorem follows_nameStep (hclear : w.Clear) (hs : s.Closed) (h : w.Rooted s) (levels : ℕ)
    (hname : name ∈ s.topLevelNames) (hplain : '<' ∉ name.toList) :
    s.Sound (nameStep levels name) fun _ t => w.Rooted t := by
  obtain ⟨g, k, hfollows, hk⟩ := h
  obtain ⟨hknown, htracks⟩ := tracks_nameStep .root hclear hs hfollows levels hname hplain
  refine (sound_nameStep hs levels name).run.mono fun _ t _ ⟨hrun, _⟩ => ?_
  obtain ⟨-, k', g', -, hk', -, hfollows', -⟩ :=
    htracks.gives _ t k hrun hk (hclear.answers_readName hknown k).fed
  exact ⟨g', k', hfollows', hk'⟩

theorem follows_compileName (hclear : w.Clear) (hs : s.Closed) (h : w.Rooted s) (levels : ℕ)
    (hname : name ∈ s.topLevelNames) (hplain : '<' ∉ name.toList) :
    Ensures s (compileName levels name)
      (fun _ t => t.Closed ∧ Persists s t ∧ w.Rooted t) fun _ _ => True := by
  have hstep := (follows_nameStep hclear hs h levels hname hplain).mono fun _ t hst ht =>
    ht.commit hst.valid s.checkpoint
  refine (ensures_atomically hs hstep).mono ?_ fun _ _ _ => trivial
  rintro _ _ ⟨ht, hst, u, hu, rfl⟩
  exact ⟨ht, hst, hu⟩

/-! ### All names -/

theorem follows_compileNames (hclear : w.Clear) (hs : s.Closed) (h : w.Rooted s) (levels : ℕ)
    (names : List String) (hnames : ∀ name ∈ names, name ∈ s.topLevelNames ∧ '<' ∉ name.toList)
    (hrun : names.forM (compileName levels) s = .ok () t) : w.Rooted t := by
  induction names generalizing s with
  | nil =>
    obtain ⟨-, rfl⟩ := EStateM.Result.ok.inj hrun
    exact h
  | cons name rest ih =>
    obtain ⟨_, u, hfirst, hrest⟩ := exists_of_bind_ok (x := compileName levels name) hrun
    obtain ⟨hname, hplain⟩ := hnames name List.mem_cons_self
    obtain ⟨hu, hsu, hrooted⟩ := (follows_compileName hclear hs h levels hname hplain).of_ok hfirst
    refine ih hu hrooted (fun other ho => ?_) hrest
    obtain ⟨hother, hplain⟩ := hnames other (List.mem_cons_of_mem _ ho)
    rw [topLevelNames, hsu.definitions hs.root_lt]
    exact ⟨hother, hplain⟩

/-- **A schema follows the definitions**, in whatever order they were compiled. -/
theorem follows_compile (hclear : w.Clear)
    (hdefinitions : ∀ name, definitions.get? name = w.definitions.get? name)
    (hplain : ∀ name ∈ definitions.keys, '<' ∉ name.toList) {schema : Schema}
    (h : compile definitions w.options = .ok schema) : ∃ g, w.Follows schema.session g := by
  obtain ⟨s, hdefined, hrun⟩ := exists_of_compile h
  have hclosed := closed_defineAll (closed_initial w.options) hdefined
  obtain ⟨rfl, -, -⟩ := declared_of_defineAll hdefined
  have hrooted : w.Rooted (declared w.options definitions) :=
    ⟨Legend.start, 0, follows_declared hdefinitions, Legend.start_made⟩
  obtain ⟨g, -, hfollows, -⟩ := follows_compileNames hclear hclosed hrooted maxLevels _
    (fun name hname => ⟨hname, hplain name hname⟩) hrun
  exact ⟨g, hfollows⟩

end Meaning

end Wireform
