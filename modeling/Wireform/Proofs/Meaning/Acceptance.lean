import Wireform.Proofs.Layout.Containment
import Wireform.Proofs.Meaning.Compilation
import Wireform.Proofs.Meaning.Matching
import Wireform.Proofs.Schema.Permanence

/-!
# What one order compiles, another one compiles too

A schema that has been compiled shows what its blocks are: each of them can be read, keeps the
rules and is not inside itself. Another order of the same definitions compiles no block that
does not stand in this schema, so where a type that it compiles contained itself, one of the
schema would. Nothing is left for which it could be stopped, but what depends on the types
that are being compiled.

* `Source.within`: the definitions, of which only the blocks of a session are read.
* `acyclic_of_within`: their types do not contain themselves.
* `excused_of_compile`: why another order is not accepted.
-/

namespace Wireform.Meaning

open Session Schema Relation

variable {w : Source} {s t u : Session} {g g' : Legend} {admits : Node → Prop} {node : Node}
  {layout : Layout} {id : TypeId} {name : String} {definition : Definition}

/-! ### Blocks of a session -/

section Admitting

theorem Source.Laid.admitting (h : w.Laid s g node layout) :
    (w.admitting admits).Laid s g node layout := by
  cases h with
  | standard hget => exact .standard hget
  | emptyTuple => exact .emptyTuple
  | array hid hnode numeric => exact .array hid hnode numeric
  | block hblock hparts hids hlays => exact .block hblock hparts hids hlays

theorem Source.Describes.admitting {type : CompiledType} (h : w.Describes s g node type) :
    (w.admitting admits).Describes s g node type :=
  ⟨h.scope, h.bound, h.laid.admitting, h.formed, h.named⟩

/-- What stands under a key is admitted if it has a slot. -/
theorem Source.Named.admitting (hcovers : Covers s g admits) {place : Node} {key : String}
    (hid : id.index < s.arena.size) (h : w.Named place key (g.node id)) :
    (w.admitting admits).Named place key (g.node id) := by
  refine ⟨h.made.imp_left ?_, h.plain⟩
  rintro ⟨body, bindings, hnode, -⟩
  exact ⟨body, bindings, hnode, hcovers id hid (by rw [hnode]; rfl)⟩

theorem Source.Enters.admitting (hcovers : Covers s g admits) {place : Node}
    {key : String} {entry : Entry} (h : w.Enters s g place key entry) :
    (w.admitting admits).Enters s g place key entry := by
  cases entry with
  | deferred template => exact h
  | compiled id => exact ⟨h.1, h.2.admitting hcovers h.1⟩
  | locked id inner => exact ⟨h.1, h.2.1.admitting hcovers h.1, h.2.2⟩

/-- A session follows the definitions if none but its own blocks are read. -/
theorem Source.Follows.admitting (h : w.Follows s g) (hcovers : Covers s g admits) :
    (w.admitting admits).Follows s g where
  options := h.options
  maps := ⟨h.maps.rooted, h.maps.standard,
    fun i hi => ⟨(h.maps.suits i hi).definitions, (h.maps.suits i hi).bindings,
    (h.maps.suits i hi).parent⟩,
    fun i hi key entry he => (h.maps.enters i hi key entry he).admitting hcovers⟩
  describes := fun id type hid => (h.describes id type hid).admitting
  labels := h.labels
  admitted := hcovers

end Admitting

/-- The same definitions, of which only the blocks of a session are read. -/
def Source.within (w : Source) (s : Session) (g : Legend) : Source :=
  w.admitting fun node => ∃ id, Stands node id s g

theorem covers_within (s : Session) (g : Legend) :
    Covers s g fun node => ∃ id, Stands node id s g :=
  fun id hid _ => ⟨id, hid, rfl⟩

/-! ### What a schema shows of its blocks -/

/-- A type of the top level has a slot, which stands for what its name stands for. -/
theorem exists_of_defined (h : w.Follows s g) (hs : s.Complete) (hplain : '<' ∉ name.toList)
    (hdefined : w.definitions.get? name = some definition) (htype : ¬definition.IsTemplate) :
    ∃ id type, rootEntry? s name = some id ∧ s.arena.get? id = some type ∧
      w.standing? .root name = some (.type (g.node id)) := by
  have hknown : (s.scope root).definitions.get? name = some definition := by
    rw [(h.maps.suits root hs.root_lt).definitions, h.maps.rooted.2]
    exact hdefined
  obtain ⟨id, hid⟩ := (wellFormed_of_complete hs).compiled name definition hknown htype
  obtain ⟨hlt, hnamed⟩ := h.maps.enters root hs.root_lt name _ (Assoc.mem_of_get? hid)
  obtain ⟨type, htype⟩ := hs.get? hlt
  refine ⟨id, type, ?_, htype, ?_⟩
  · unfold rootEntry?
    rw [hid]
  · rw [← h.maps.rooted.2]
    exact hnamed.plain hplain

/-- A name that is not a standard one stands for its definition. -/
theorem standing?_of_defined (hnew : name ∉ rootEntries.keys)
    (hdefined : w.definitions.get? name = some definition) :
    w.standing? .root name = some (Node.root.standing name definition) := by
  have hnone : standard? .root name = none := by
    rw [standard?, (Assoc.get?_eq_none_iff _ _).2 hnew]
  rw [Source.standing?, hnone, Option.none_or]
  exact congrArg (Option.map _) hdefined

section Blocks

variable (h : w.Follows s g) (hs : s.Complete)

include h hs

/-- Every block that stands in a schema has been read. -/
theorem Source.Follows.answers_within {block : Block} (hid : Stands node id s g)
    (hblock : node.block? = some block) :
    Answers (fun levels => (w.within s g).parts ((w.within s g).oracle levels) node block) 0 := by
  obtain ⟨type, htype⟩ := hs.get? hid.1
  obtain ⟨ids, hparts, -, -⟩ := (hid.2 ▸ (h.describes id type htype).laid).of_block hblock
  obtain ⟨k, hreads⟩ := hparts _ (covers_within s g)
  exact hreads.answers

theorem Source.Follows.answered_within : (w.within s g).Answered where
  parts := by
    rintro node block ⟨id, hid⟩ hblock
    exact h.answers_within hs hid hblock
  formed := by
    rintro node block ⟨id, hlt, rfl⟩ hblock
    obtain ⟨type, htype⟩ := hs.get? hlt
    exact (h.describes id type htype).formed block hblock
  named := by
    rintro home key body bindings ⟨id, hlt, hnode⟩ hplain
    obtain ⟨type, htype⟩ := hs.get? hlt
    have hnamed := (h.describes id type htype).named home key body bindings hnode hplain
    rwa [hnode] at hnamed

/-- **The blocks of a schema** are enough to compile it. -/
theorem Source.Follows.clear_within (hclear : w.Clear)
    (hnames : ∀ name ∈ w.definitions.keys, '<' ∉ name.toList ∧ name ∉ rootEntries.keys) :
    (w.within s g).Clear where
  defined := by
    intro name definition hdefined htype
    obtain ⟨hplain, hnew⟩ := hnames name (Assoc.mem_keys (Assoc.mem_of_get? hdefined))
    obtain ⟨id, type, -, hid, hstanding⟩ := exists_of_defined h hs hplain hdefined htype
    refine ⟨id, Arena.lt_size_of_get? _ hid, ?_⟩
    have hsame := hstanding.symm.trans (standing?_of_defined (w := w) hnew hdefined)
    cases definition with
    | template parameters body => exact absurd trivial htype
    | _ => exact Standing.type.inj (Option.some.inj hsame)
  closed := by
    rintro node block ⟨id, hid⟩ hblock
    exact (h.answers_within hs hid hblock).fed
  apart := by
    rintro home key body bindings body' bindings' ⟨id, hlt, hnode⟩ ⟨id', hlt', hnode'⟩
    have hadmits := h.admitted id hlt (by rw [hnode]; rfl)
    have hadmits' := h.admitted id' hlt' (by rw [hnode']; rfl)
    rw [hnode] at hadmits
    rw [hnode'] at hadmits'
    exact hclear.apart _ _ _ _ _ _ hadmits hadmits'

end Blocks

/-! ### Types that contain themselves -/

/-- A mandatory part of a counterpart is the counterpart of one. -/
theorem exists_partOf (h : w.Follows t g') (h' : w.Complies s g) {part id id' : TypeId}
    (hp : Paired t g' s g id id') (hpart : t.arena.PartOf part id) :
    ∃ part', Paired t g' s g part part' ∧ s.arena.PartOf part' id' := by
  obtain ⟨type, hid, hmem⟩ := hpart
  obtain ⟨type', hid'⟩ := h'.filled id' hp.right
  have henum : ∀ e, type.layout ≠ .enum e := by
    intro e heq
    rw [heq] at hmem
    cases hmem
  have htranslates :=
    (h.describes id type hid).laid.counterpart (hp.node ▸ (h'.describes id' type' hid').laid)
    h'.labels (h'.options.trans h.options.symm) henum
  obtain ⟨part', hpaired⟩ := htranslates.2 part (Arena.mem_references_of_mandatory hmem)
  refine ⟨part', hpaired, type', hid', ?_⟩
  rw [← Layout.mandatory_indirect, htranslates.1, Layout.mandatory_indirect, Layout.mandatory_map,
    ← hpaired.counterpart_eq h'.labels]
  exact List.mem_map_of_mem hmem

/-- Of all nodes only blocks and arrays have mandatory parts, and that of an array is its
element. -/
theorem Source.Laid.of_mandatory (h : w.Laid s g node layout) {part : TypeId}
    (hpart : part ∈ layout.mandatory) :
    node.block?.isSome ∨ ∃ owner position size nullable,
      node = .array owner position (g.node part) size nullable := by
  cases h with
  | standard hget =>
    obtain ⟨p, hp⟩ := layout_standard hget
    rw [hp] at hpart
    cases hpart
  | emptyTuple => cases hpart
  | @array owner element position size nullable id hid hnode numeric =>
    simp only [Layout.mandatory] at hpart
    split at hpart
    · obtain rfl := List.mem_singleton.1 hpart
      exact Or.inr ⟨owner, position, size, nullable, by rw [hnode]⟩
    · cases hpart
  | block hblock => exact Or.inl (Option.isSome_of_eq_some hblock)

/-- What is inside a counterpart has a counterpart inside the other one. -/
theorem exists_inside (h : w.Follows t g') (h' : w.Complies s g) {part id id' : TypeId}
    (hinside : TransGen t.arena.PartOf part id) (hp : Paired t g' s g id id') :
    ∃ part', Paired t g' s g part part' ∧ TransGen s.arena.PartOf part' id' := by
  induction hinside using TransGen.head_induction_on with
  | single hpart =>
    obtain ⟨part', hpaired, hpart'⟩ := exists_partOf h h' hp hpart
    exact ⟨part', hpaired, .single hpart'⟩
  | head hpart _ ih =>
    obtain ⟨mid', hmid, hinside'⟩ := ih
    obtain ⟨part', hpaired, hpart'⟩ := exists_partOf h h' hmid hpart
    exact ⟨part', hpaired, .head hpart' hinside'⟩

/-- **Their types do not contain themselves**, since those of the session do not. -/
theorem acyclic_of_within (h : (w.within s g).Follows t g') (h' : (w.within s g).Complies s g)
    (hacyclic : s.arena.Acyclic) : t.arena.Acyclic := by
  intro id hself
  -- an array would be around its element, down to a block
  induction hsize : sizeOf (g'.node id) using Nat.strong_induction_on generalizing id with
  | h size ih =>
    obtain ⟨part, hinside, hpart⟩ := TransGen.tail'_iff.1 hself
    obtain ⟨type, hid, hmem⟩ := hpart
    rcases (h.describes id type hid).laid.of_mandatory hmem
      with hblock | ⟨owner, position, size, nullable, hnode⟩
    · obtain ⟨id', hlt, hnode⟩ := h.admitted id (Arena.lt_size_of_get? _ hid) hblock
      have hp : Paired t g' s g id id' := ⟨Arena.lt_size_of_get? _ hid, hlt, hnode⟩
      obtain ⟨other, hother, hself'⟩ := exists_inside h h' hself hp
      obtain rfl := h'.labels.nodes other id' hother.right hlt (hother.node.trans hnode.symm)
      exact hacyclic other hself'
    · refine ih _ ?_ part (.head' ⟨type, hid, hmem⟩ hinside) rfl
      rw [← hsize, hnode, Node.array.sizeOf_spec]
      omega

/-! ### Other orders -/

section Orders

variable (hclear : w.Clear) (hanswered : w.Answered)
  (hacyclic : ∀ t g', w.Follows t g' → t.arena.Acyclic)

include hclear hanswered hacyclic

/-- **What stops a name** depends on what is being compiled. -/
theorem excused_of_compileName (hs : s.Closed) (h : w.Rooted s) (levels : ℕ)
    (hname : name ∈ s.topLevelNames) (hplain : '<' ∉ name.toList) {stop : Stop CompileError}
    (hfails : compileName levels name s = .error stop t) :
    Excused stop := by
  have hstep := follows_nameStep hclear hs h levels hname hplain
  cases hrun : nameStep levels name s with
  | error stop' u =>
    obtain ⟨g, k, hfollows, hk⟩ := h
    obtain ⟨hknown, htracks⟩ := tracks_nameStep .root hclear hs hfollows levels hname hplain
    have hcall : compileName levels name s = .error stop' (u.rollback s.checkpoint) :=
      atomically_of_error (bind_of_error hrun)
    obtain ⟨rfl, -⟩ := EStateM.Result.error.inj (hcall.symm.trans hfails)
    exact htracks.stops stop' u k hrun hk hanswered (hclear.answers_readName hknown k)
  | ok a u =>
    -- what was compiled does not contain itself
    obtain ⟨-, g', k', hfollows', -⟩ := hstep.of_ok hrun
    rcases atomically_of_step hs hstep hrun with ⟨id, -, hcycle, -⟩ | ⟨-, hpasses⟩
    · exact absurd hcycle.inside (hacyclic u g' hfollows' id)
    · cases hpasses.symm.trans hfails

theorem excused_of_compileNames (hs : s.Closed) (h : w.Rooted s) (levels : ℕ) (names : List String)
    (hnames : ∀ name ∈ names, name ∈ s.topLevelNames ∧ '<' ∉ name.toList) {stop : Stop CompileError}
    (hrun : names.forM (compileName levels) s = .error stop t) : Excused stop := by
  induction names generalizing s with
  | nil => cases hrun
  | cons name rest ih =>
    obtain ⟨hname, hplain⟩ := hnames name List.mem_cons_self
    rcases error_of_bind (x := compileName levels name) hrun with hfails | ⟨_, u, hok, hrest⟩
    · exact excused_of_compileName hclear hanswered hacyclic hs h levels hname hplain hfails
    · obtain ⟨hu, hsu, hrooted⟩ := (follows_compileName hclear hs h levels hname hplain).of_ok hok
      refine ih hu hrooted (fun other ho => ?_) hrest
      rw [topLevelNames, hsu.definitions hs.root_lt]
      exact hnames other (List.mem_cons_of_mem _ ho)

end Orders

/-- **Why another order is not accepted.** If one order of the definitions is compiled, what stops
another one depends on what is being compiled. -/
theorem excused_of_perm {definitions permuted : List (String × Definition)} {options : Options}
    {schema : Schema} (hperm : definitions.Perm permuted)
    (hplain : ∀ name ∈ Assoc.keys definitions, '<' ∉ name.toList) (hclear : w.Clear)
    (hw : w.definitions = definitions ∧ w.options = options)
    (h : compile definitions options = .ok schema) {stop : Stop CompileError}
    (hfails : compile permuted options = .error stop) : Excused stop := by
  obtain ⟨rfl, rfl⟩ := hw
  obtain ⟨s, hdefined, -⟩ := exists_of_compile h
  obtain ⟨-, hnodup, hstandard⟩ := declared_of_defineAll hdefined
  have hkeys := hperm.map Prod.fst
  -- the blocks of the schema are all that is read
  obtain ⟨g, hfollows⟩ := follows_compile hclear (fun _ => rfl) hplain h
  have hs := complete_compile h
  have hwithin : (w.within schema.session g).Complies schema.session g :=
    ⟨hfollows.admitting (covers_within _ g), fun _ => hs.get?⟩
  have hclear' :=
    hfollows.clear_within hs hclear fun name hname => ⟨hplain name hname, hstandard name hname⟩
  have hacyclic : ∀ t g', (w.within schema.session g).Follows t g' → t.arena.Acyclic :=
    fun t g' ht => acyclic_of_within ht hwithin hs.acyclic
  -- the names can be defined in the other order too
  have hdefined' : defineAll (.initial w.options) permuted = .ok (declared w.options permuted) := by
    refine defineAll_of_new w.options [] (hkeys.nodup_iff.1 hnodup) fun name hname => ?_
    exact hstandard name (hkeys.mem_iff.2 hname)
  have hrooted : (w.within schema.session g).Rooted (declared w.options permuted) := by
    refine ⟨Legend.start, 0, follows_declared fun name => ?_, Legend.start_made⟩
    exact (Assoc.get?_of_perm hperm hnodup name).symm
  have hclosed := closed_defineAll (closed_initial w.options) hdefined'
  unfold compile at hfails
  simp only [hdefined', Except.mapError, bind, Except.bind] at hfails
  split at hfails
  · cases hfails
  · next stop' t hrun =>
    obtain rfl := Except.error.inj hfails
    refine excused_of_compileNames hclear' (hfollows.answered_within hs) hacyclic hclosed
      hrooted maxLevels _
      (fun name hname => ⟨hname, ?_⟩) hrun
    exact hplain name (hkeys.mem_iff.2 hname)

end Wireform.Meaning
