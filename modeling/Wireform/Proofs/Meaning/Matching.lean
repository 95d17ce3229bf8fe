import Wireform.Proofs.Codec.Matching
import Wireform.Proofs.Layout.Decidable
import Wireform.Proofs.Meaning.Layouts
import Wireform.Proofs.Session.Variants

/-!
# Two sessions that follow the same definitions

A slot of the one session has a counterpart in the other: the slot that stands for the same node.
The layouts of the two are the same, except for the numbers of the slots to which they refer, since
these stand for what is read from the definitions, and that is the same for both. Only what an enum
says of its payloads was seen at the time when it was compiled; where it is what is there now, it is
the same in both sessions too.

* `Session.Informed`: enums know their payloads as they are now.
* `Source.Laid.counterpart`: the layouts of counterparts.
* `Source.Follows.matches`: the two arenas match.
-/

namespace Wireform

namespace Session

/-- What each enum says of its payloads is what they are now. -/
def Informed (s : Session) : Prop :=
  ∀ id type e, s.arena.get? id = some type → type.layout = .enum e → ∀ variant ∈ e.variants,
    Reflects s.arena s.emptyTuple e.shape e.target
    ⟨variant.tag, variant.name⟩ variant.payload variant

/-- The enums of an arena. -/
def enums (arena : Arena) : List EnumLayout :=
  arena.slots.toList.filterMap fun slot => slot.bind fun type =>
    match type.layout with
    | .enum e => some e
    | _ => none

theorem mem_enums {arena : Arena} {e : EnumLayout} :
    e ∈ enums arena ↔ ∃ id type, arena.get? id = some type ∧ type.layout = .enum e := by
  unfold enums
  rw [List.mem_filterMap]
  constructor
  · rintro ⟨slot, hslot, hfound⟩
    obtain ⟨type, rfl, htype⟩ := Option.bind_eq_some_iff.1 hfound
    obtain ⟨i, hi⟩ := Array.getElem?_of_mem (Array.mem_toList_iff.1 hslot)
    refine ⟨⟨i⟩, type, Option.join_eq_some_iff.2 hi, ?_⟩
    split at htype
    · next hl => rw [hl, Option.some.inj htype]
    · cases htype
  · rintro ⟨id, type, hid, hl⟩
    refine ⟨some type,
      Array.mem_toList_iff.2 (Array.mem_of_getElem? (Option.join_eq_some_iff.1 hid)), ?_⟩
    simp only [Option.bind_some, hl]

/-- What a variant says of its payload is found out by looking behind the payload's slot. -/
theorem reflects_iff {arena : Arena} {emptyTuple : Option TypeId} {shape : EnumShape}
    {target : String} {variant : VariantLayout} :
    Reflects arena emptyTuple shape target ⟨variant.tag, variant.name⟩ variant.payload variant ↔
      let literal := (structBehind? arena variant.payload).bind (declared? shape target)
      (variant.dispatch = literal.getD (.string variant.name) ∧
        variant.embeddedTag = decide (literal.isSome ∧ shape = .tuple) ∧
        variant.declaresTarget = decide (literal.isSome ∧ shape = .object)) ∧
      (shape = .tuple → (structBehind? arena variant.payload).any (·.shape = .empty) →
        emptyTuple = some variant.payload) := by
  have hshared : ((structBehind? arena variant.payload).any (·.shape = .empty) →
      emptyTuple = some variant.payload) ↔
      ∀ body, structBehind? arena variant.payload = some body → body.shape = .empty →
      emptyTuple = some variant.payload := by
    rw [Option.any_eq_true]
    exact ⟨fun h body hbody hb => h ⟨body, hbody, decide_eq_true hb⟩,
      fun h ⟨body, hbody, hb⟩ => h body hbody (of_decide_eq_true hb)⟩
  rw [hshared]
  cases hfound : (structBehind? arena variant.payload).bind (declared? shape target) with
  | none =>
    refine ⟨fun h => ⟨?_, h.empty⟩,
      fun ⟨htold, hempty⟩ => ⟨rfl, rfl, ?_, fun _ => ?_, hempty, fun _ => rfl⟩⟩
    · simpa using h.undeclared hfound
    · rw [hfound]
      exact nofun
    · simpa using htold
  | some literal =>
    refine ⟨fun h => ⟨?_, h.empty⟩,
      fun ⟨htold, hempty⟩ => ⟨rfl, rfl, fun other ho => ?_, ?_, hempty, fun _ => rfl⟩⟩
    · simpa using h.declared literal hfound
    · obtain rfl := Option.some.inj (hfound.symm.trans ho)
      simpa using htold
    · rw [hfound]
      exact nofun

instance (arena : Arena) (emptyTuple : Option TypeId) (shape : EnumShape) (target : String)
    (variant : VariantLayout) :
    Decidable (Reflects arena emptyTuple shape target
      ⟨variant.tag, variant.name⟩ variant.payload variant) :=
  decidable_of_iff' _ reflects_iff

theorem informed_iff {s : Session} : s.Informed ↔ ∀ e ∈ enums s.arena, ∀ variant ∈ e.variants,
    Reflects s.arena s.emptyTuple e.shape e.target
      ⟨variant.tag, variant.name⟩ variant.payload variant := by
  refine ⟨fun h e he => ?_, fun h id type e hid hl => h e (mem_enums.2 ⟨id, type, hid, hl⟩)⟩
  obtain ⟨id, type, hid, hl⟩ := mem_enums.1 he
  exact h id type e hid hl

instance (s : Session) : Decidable s.Informed := decidable_of_iff' _ informed_iff

/-- A struct declares the same discriminant if it refers to other slots. -/
theorem declared?_map (f : TypeId → TypeId) (shape : EnumShape) (target : String)
    (body : StructLayout) :
    declared? shape target { body with fields := body.fields.map (FieldLayout.map f) } =
      declared? shape target body := by
  cases shape with
  | tuple =>
    rcases hfields : body.fields with _ | ⟨⟨place, _ | _ | _⟩, rest⟩ <;>
      simp [declared?, leadingLiteral?, FieldLayout.map, hfields]
  | object =>
    simp only [declared?, StructLayout.literalAt?, List.findSome?_map]
    congr 1
    funext field
    obtain ⟨place, _ | _ | _⟩ := field <;> rfl

end Session

namespace Meaning

open Session

variable {w : Source} {s t : Session} {g g' : Legend} {id id' : TypeId} {node : Node}
  {layout layout' : Layout}

/-! ### Counterparts -/

/-- Slots of two sessions that stand for the same node. -/
structure Paired (s : Session) (g : Legend) (t : Session) (g' : Legend)
    (id id' : TypeId) : Prop where
  left : id.index < s.arena.size
  right : id'.index < t.arena.size
  node : g'.node id' = g.node id

theorem Paired.symm (h : Paired s g t g' id id') : Paired t g' s g id' id :=
  ⟨h.right, h.left, h.node.symm⟩

open Classical in
/-- The slot of another session that stands for the same node, if there is one. -/
noncomputable def counterpart (g : Legend) (t : Session) (g' : Legend) (id : TypeId) : TypeId :=
  if h : ∃ id' : TypeId, id'.index < t.arena.size ∧ g'.node id' = g.node id then h.choose else id

theorem Paired.counterpart_eq (h : Paired s g t g' id id') (ht : Labels t g') :
    counterpart g t g' id = id' := by
  have hex : ∃ id' : TypeId, id'.index < t.arena.size ∧ g'.node id' = g.node id :=
    ⟨id', h.right, h.node⟩
  obtain ⟨hlt, hnode⟩ := hex.choose_spec
  unfold counterpart
  rw [dif_pos hex]
  exact ht.nodes _ _ hlt h.right (hnode.trans h.node.symm)

/-- Slots that stand for the same nodes one by one. -/
theorem forall₂_paired {ids ids' : List TypeId} (hids : ∀ id ∈ ids, id.index < s.arena.size)
    (hids' : ∀ id ∈ ids', id.index < t.arena.size) (h : ids'.map g'.node = ids.map g.node) :
    List.Forall₂ (Paired s g t g') ids ids' := by
  induction ids generalizing ids' with
  | nil =>
    obtain rfl := List.map_eq_nil_iff.1 h
    exact .nil
  | cons id rest ih =>
    obtain ⟨id', rest', rfl, hnode, hrest⟩ := List.map_eq_cons_iff.1 h
    exact .cons ⟨hids id List.mem_cons_self, hids' id' List.mem_cons_self, hnode⟩
      (ih (fun other ho => hids other (List.mem_cons_of_mem _ ho))
        (fun other ho => hids' other (List.mem_cons_of_mem _ ho)) hrest)

theorem map_counterpart {ids ids' : List TypeId} (h : List.Forall₂ (Paired s g t g') ids ids')
    (ht : Labels t g') :
    ids' = ids.map (counterpart g t g') := by
  induction h with
  | nil => rfl
  | cons hfirst _ ih => rw [List.map_cons, hfirst.counterpart_eq ht, ← ih]

/-! ### Layouts that refer to other slots -/

section Map

variable (f : TypeId → TypeId)

/-- Fields are laid out alike in slots with other numbers, and refer to no other slots. -/
theorem layFields_map (verify : Bool) (shape : StructShape) (bindings : Bindings)
    (flags position : ℕ) (fields : List Field) (ids : List TypeId) :
    layFields verify shape bindings flags position fields (ids.map f) =
      (layFields verify shape bindings flags position fields ids).map (FieldLayout.map f) ∧
    ∀ part ∈
      (layFields verify shape bindings flags position fields ids).filterMap FieldLayout.reference?,
      part ∈ ids := by
  induction fields generalizing flags position ids with
  | nil => exact ⟨rfl, List.forall_mem_nil _⟩
  | cons field rest ih =>
    cases field with
    | constant type value =>
      cases ids with
      | nil => exact ⟨rfl, List.forall_mem_nil _⟩
      | cons id ids =>
        obtain ⟨hmap, hparts⟩ := ih flags position ids
        simp only [List.map_cons, layFields, hmap]
        exact ⟨rfl, List.forall_mem_cons.2
          ⟨List.mem_cons_self, fun part hpart => List.mem_cons_of_mem _ (hparts part hpart)⟩⟩
    | literal key value =>
      simp only [layFields]
      cases fieldPlace shape key position with
      | error error => exact ⟨rfl, List.forall_mem_nil _⟩
      | ok found =>
        obtain ⟨hmap, hparts⟩ := ih flags found.2 ids
        simp only [List.map_cons, hmap]
        exact ⟨rfl, hparts⟩
    | typed key type =>
      cases ids with
      | nil => exact ⟨rfl, List.forall_mem_nil _⟩
      | cons id ids =>
        simp only [List.map_cons, layFields]
        cases fieldPlace shape key position with
        | error error => exact ⟨rfl, List.forall_mem_nil _⟩
        | ok found =>
          obtain ⟨hmap, hparts⟩ :=
            ih (if (type.substitute bindings).nullable then flags + 1 else flags) found.2 ids
          simp only [List.map_cons, hmap]
          exact ⟨rfl, List.forall_mem_cons.2
            ⟨List.mem_cons_self, fun part hpart => List.mem_cons_of_mem _ (hparts part hpart)⟩⟩

theorem structLayout_map (options : Options) (bindings : Bindings) (body : StructBody)
    (ids : List TypeId) :
    Layout.struct (structLayout options bindings body (ids.map f)) =
      (Layout.struct (structLayout options bindings body ids)).map f ∧
    ∀ part ∈ (Layout.struct (structLayout options bindings body ids)).references, part ∈ ids := by
  unfold structLayout
  split
  · exact ⟨rfl, nofun⟩
  · obtain ⟨hmap, hparts⟩ :=
      layFields_map f options.strictConstants body.shape bindings 0 0 body.fields ids
    rw [hmap]
    exact ⟨rfl, hparts⟩

theorem builtinLayout?_map {builtin : Builtin} {arguments : List Operand} {ids : List TypeId}
    {layout : Layout} (h : builtinLayout? builtin arguments ids = some layout) :
    builtinLayout? builtin arguments (ids.map f) = some (layout.map f) ∧
    ∀ part ∈ layout.references, part ∈ ids := by
  unfold builtinLayout? at h
  split at h
  · next label _ =>
    obtain ⟨encoding, hlabel, rfl⟩ := Option.map_eq_some_iff.1 h
    simp only [builtinLayout?, hlabel]
    exact ⟨rfl, List.forall_mem_nil _⟩
  · obtain rfl := Option.some.inj h
    exact ⟨rfl, fun part hpart => hpart⟩
  · obtain ⟨length, hlength, rfl⟩ := Option.map_eq_some_iff.1 h
    simp only [builtinLayout?, List.map_cons, List.map_nil, hlength]
    exact ⟨rfl, fun part hpart => hpart⟩
  · obtain ⟨size, hsize, rfl⟩ := Option.map_eq_some_iff.1 h
    simp only [builtinLayout?, List.map_cons, List.map_nil, hsize]
    exact ⟨rfl, fun part hpart => hpart⟩
  · obtain ⟨count, hcount, rfl⟩ := Option.map_eq_some_iff.1 h
    simp only [builtinLayout?, hcount]
    exact ⟨rfl, List.forall_mem_nil _⟩
  · cases h

end Map

/-! ### Layouts of counterparts -/

theorem Source.HasParts.unique {block : Block} {parts parts' : List Node}
    (h : w.HasParts node block parts) (h' : w.HasParts node block parts') : parts' = parts := by
  obtain ⟨k, h⟩ := h
  obtain ⟨k', h'⟩ := h'
  exact h.unique h'

/-- The layout of a block is made of slots for its parts. -/
theorem Source.Laid.of_block (h : w.Laid s g node layout) {block : Block}
    (hblock : node.block? = some block) :
    ∃ ids, (w.Under s g fun w => w.HasParts node block (ids.map g.node)) ∧
      (∀ id ∈ ids, id.index < s.arena.size) ∧ Lays s g block.bindings block.body ids layout := by
  cases h with
  | standard | emptyTuple | array => cases hblock
  | block hblock' hparts hids hlays =>
    obtain rfl := Option.some.inj (hblock.symm.trans hblock')
    exact ⟨_, hparts, hids, hlays⟩

/-- In two sessions a block is made of counterparts. -/
theorem Source.Under.paired {block : Block} {ids ids' : List TypeId}
    (h : w.Under s g fun w => w.HasParts node block (ids.map g.node))
    (h' : w.Under t g' fun w => w.HasParts node block (ids'.map g'.node))
    (hids : ∀ id ∈ ids, id.index < s.arena.size) (hids' : ∀ id ∈ ids', id.index < t.arena.size) :
    List.Forall₂ (Paired s g t g') ids ids' :=
  -- all blocks may be admitted
  forall₂_paired hids hids'
  ((h (fun _ => True) fun _ _ _ => trivial).unique (h' _ fun _ _ _ => trivial))

/-- A layout that refers to the counterparts of the slots to which another one
refers, and these have some. -/
def Translates (s : Session) (g : Legend) (t : Session) (g' : Legend)
    (layout layout' : Layout) : Prop :=
  layout'.indirect = (layout.map (counterpart g t g')).indirect ∧
    ∀ part ∈ layout.references, ∃ part', Paired s g t g' part part'

theorem exists_paired {ids ids' : List TypeId} (h : List.Forall₂ (Paired s g t g') ids ids') :
    ∀ id ∈ ids, ∃ id', Paired s g t g' id id' := by
  intro id hid
  obtain ⟨i, hi, rfl⟩ := List.getElem_of_mem hid
  exact ⟨_, h.get hi (h.length_eq ▸ hi)⟩

/-- **Layouts of counterparts** are the same, but for the numbers of slots. -/
theorem Source.Laid.counterpart (hl : w.Laid s g node layout) (hl' : w.Laid t g' node layout')
    (ht : Labels t g') (hoptions : t.options = s.options) (henum : ∀ e, layout ≠ .enum e) :
    Translates s g t g' layout layout' := by
  cases hl with
  | @standard id type hget =>
    obtain ⟨p, hp⟩ := layout_standard hget
    cases hl' with
    | standard hget' =>
      obtain rfl := Option.some.inj (hget.symm.trans hget')
      rw [Translates, hp]
      exact ⟨rfl, nofun⟩
    | block hblock => cases hblock
  | emptyTuple =>
    cases hl' with
    | emptyTuple => exact ⟨rfl, nofun⟩
    | block hblock => cases hblock
  | @array owner element position size nullable id hid hnode numeric =>
    cases hl' with
    | @array _ _ _ _ _ id' hid' hnode' numeric' =>
      have hpaired : Paired s g t g' id id' := ⟨hid, hid', hnode'.trans hnode.symm⟩
      refine ⟨?_, List.forall_mem_singleton.2 ⟨id', hpaired⟩⟩
      rw [← hpaired.counterpart_eq ht]
      rfl
    | block hblock => cases hblock
  | @block _ block ids _ hblock hparts hids hlays =>
    obtain ⟨ids', hparts', hids', hlays'⟩ := hl'.of_block hblock
    have hpaired := hparts.paired hparts' hids hids'
    obtain rfl := map_counterpart hpaired ht
    have hall := exists_paired hpaired
    rcases block
      with ⟨home, (body | body | target | ⟨parameters, body⟩) | ⟨builtin, arguments⟩, bindings⟩
    · obtain rfl : layout = _ := hlays
      obtain rfl : layout' = _ := hlays'
      obtain ⟨hmap, hmem⟩ :=
        structLayout_map (Meaning.counterpart g t g') s.options bindings body ids
      rw [hoptions]
      exact ⟨congrArg Layout.indirect hmap, fun part hpart => hall part (hmem part hpart)⟩
    · obtain ⟨tag, raws, variants, -, -, heq⟩ := hlays
      exact absurd heq (henum _)
    · obtain ⟨id, rfl, rfl⟩ := hlays
      obtain ⟨id', hid', rfl⟩ := hlays'
      obtain rfl := (List.cons_eq_cons.1 hid').1
      exact ⟨rfl, hall⟩
    · exact hlays.elim
    · obtain ⟨hmap, hmem⟩ := builtinLayout?_map (Meaning.counterpart g t g') hlays
      obtain rfl := Option.some.inj (hmap.symm.trans hlays')
      exact ⟨rfl, fun part hpart => hall part (hmem part hpart)⟩

/-- Only the block of an enum has the layout of one. -/
theorem Source.Laid.of_enum (h : w.Laid s g node layout) {e : EnumLayout}
    (hlayout : layout = .enum e) :
    ∃ home body bindings, node.block? = some ⟨home, .definition (.enum body), bindings⟩ := by
  cases h with
  | standard hget =>
    obtain ⟨p, hp⟩ := layout_standard hget
    rw [hp] at hlayout
    cases hlayout
  | emptyTuple | array => cases hlayout
  | @block _ block ids _ hblock hparts hids hlays =>
    subst hlayout
    rcases block
      with ⟨home, (body | body | target | ⟨parameters, body⟩) | ⟨builtin, arguments⟩, bindings⟩
    · cases hlays
    · exact ⟨home, body, bindings, hblock⟩
    · obtain ⟨id, -, heq⟩ := hlays
      cases heq
    · exact hlays.elim
    · exact absurd rfl ((builtinLayout?_ne hlays).2.2 e)

/-! ### What is behind counterparts -/

/-- A session between two calls that follows the definitions. -/
structure Source.Complies (w : Source) (s : Session) (g : Legend) : Prop extends w.Follows s g where
  filled : ∀ id : TypeId, id.index < s.arena.size → ∃ type, s.arena.get? id = some type

theorem Translates.of_synonym {target : TypeId}
    (h : Translates s g t g' (.synonym target) layout') :
    layout' = .synonym (counterpart g t g' target) := by
  rcases Layout.eq_or_array h.1 with heq | ⟨_, _, heq, -⟩
  · exact heq
  · cases heq

theorem Translates.of_struct {body : StructLayout}
    (h : Translates s g t g' (.struct body) layout') :
    layout' =
      .struct { body with fields := body.fields.map (FieldLayout.map (counterpart g t g')) } := by
  rcases Layout.eq_or_array h.1 with heq | ⟨_, _, heq, -⟩
  · exact heq
  · cases heq

section Counterparts

variable (h : w.Complies s g) (h' : w.Complies t g')

include h h'

/-- The layouts of two counterparts. -/
theorem exists_layouts (hp : Paired s g t g' id id') : ∃ type type', s.arena.get? id = some type ∧
    t.arena.get? id' = some type' ∧ w.Laid s g (g.node id) type.layout ∧
    w.Laid t g' (g.node id) type'.layout := by
  obtain ⟨type, htype⟩ := h.filled id hp.left
  obtain ⟨type', htype'⟩ := h'.filled id' hp.right
  exact ⟨type, type', htype, htype', (h.describes id type htype).laid,
    hp.node ▸ (h'.describes id' type' htype').laid⟩

theorem translates_of_paired (hp : Paired s g t g' id id') {type type' : CompiledType}
    (htype : s.arena.get? id = some type) (htype' : t.arena.get? id' = some type')
    (henum : ∀ e, type.layout ≠ .enum e) : Translates s g t g' type.layout type'.layout :=
  (h.describes id type htype).laid.counterpart
    (hp.node ▸ (h'.describes id' type' htype').laid) h'.labels
    (h'.options.trans h.options.symm) henum

/-- **The struct behind a counterpart** is the same, but for the numbers of slots. -/
theorem structBehind?_of_paired (hp : Paired s g t g' id id') {body : StructLayout}
    (hbehind : structBehind? s.arena id = some body) : structBehind? t.arena id' =
      some { body with fields := body.fields.map (FieldLayout.map (counterpart g t g')) } := by
  -- both ways are ones of synonyms, and lead from counterpart to counterpart
  have hpeel : ∀ steps id id' type, Paired s g t g' id id' →
      s.arena.peelWithin? steps id = some type →
      type.layout = .struct body → ∃ type', t.arena.peelWithin? steps id' = some type' ∧
        type'.layout = .struct
        { body with fields := body.fields.map (FieldLayout.map (counterpart g t g')) } := by
    intro steps
    induction steps with
    | zero => exact fun _ _ _ _ hpeel => nomatch hpeel
    | succ steps ih =>
      intro id id' type hp hpeel hlayout
      obtain ⟨found, found', hfound, hfound', -⟩ := exists_layouts h h' hp
      have htranslates := translates_of_paired h h' hp hfound hfound'
      by_cases hl : ∃ target, found.layout = .synonym target
      · obtain ⟨target, htarget⟩ := hl
        rw [htarget] at htranslates
        have htarget' := (htranslates nofun).of_synonym
        obtain ⟨part, hpart⟩ := (htranslates nofun).2 target List.mem_cons_self
        rw [hpart.counterpart_eq h'.labels] at htarget'
        rw [Arena.peelWithin?_synonym hfound htarget] at hpeel
        rw [Arena.peelWithin?_synonym hfound' htarget']
        exact ih target part type hpart hpeel hlayout
      · rw [Arena.peelWithin?_other hfound fun target htarget => hl ⟨target, htarget⟩] at hpeel
        obtain rfl := Option.some.inj hpeel
        rw [hlayout] at htranslates
        have hlayout' := (htranslates nofun).of_struct
        refine ⟨found', Arena.peelWithin?_other hfound' (fun target htarget => ?_) steps, hlayout'⟩
        rw [hlayout'] at htarget
        cases htarget
  unfold structBehind? at hbehind
  split at hbehind
  · next body' hmap =>
    obtain rfl := Option.some.inj hbehind
    obtain ⟨type, hpeeled, hlayout⟩ := Option.map_eq_some_iff.1 hmap
    obtain ⟨type', hpeeled', hlayout'⟩ := hpeel _ id id' type hp hpeeled hlayout
    unfold structBehind?
    rw [Arena.peel?_of_peelWithin? hpeeled', Option.map_some, hlayout']
  · cases hbehind

/-- Counterparts declare the same discriminant, or none. -/
theorem declared?_of_paired (hp : Paired s g t g' id id') (shape : EnumShape) (target : String) :
    (structBehind? t.arena id').bind (declared? shape target) =
      (structBehind? s.arena id).bind (declared? shape target) := by
  cases hbehind : structBehind? s.arena id with
  | some body =>
    rw [structBehind?_of_paired h h' hp hbehind]
    exact declared?_map _ shape target body
  | none =>
    cases hbehind' : structBehind? t.arena id' with
    | none => rfl
    | some body' =>
      rw [structBehind?_of_paired h' h hp.symm hbehind'] at hbehind
      cases hbehind

/-! ### Enums -/

/-- A payload that has become the shared empty tuple in the one session has become it in the
other. -/
theorem paired_of_empty {shape : EnumShape} {target : String} {entry : EnumEntry}
    {raw raw' : TypeId} {variant variant' : VariantLayout} (hp : Paired s g t g' raw raw')
    (hraw : variant.payload = raw)
    (hreflects : Reflects s.arena s.emptyTuple shape target entry variant.payload variant)
    (hempty : shape = .tuple ∧ variant'.payload.index < t.arena.size ∧
      g'.node variant'.payload = .emptyTuple ∧
      ∃ body, structBehind? t.arena raw' = some body ∧ body.shape = .empty) :
    Paired s g t g' variant.payload variant'.payload := by
  obtain ⟨hshape, hlt, hnode, body, hbehind, hbody⟩ := hempty
  have hbehind' := structBehind?_of_paired h' h hp.symm hbehind
  rw [← hraw] at hbehind' hp
  have hshared := hreflects.empty hshape _ hbehind' hbody
  exact ⟨hp.left, hlt, hnode.trans ((h.labels.emptyTuple _ hp.left).2 hshared).symm⟩

/-- **A variant** is the same in both sessions if it knows its payload, but for the numbers of
slots. -/
theorem map_variant {shape : EnumShape} {target : String} {entry : EnumEntry} {raw raw' : TypeId}
    {variant variant' : VariantLayout} (hp : Paired s g t g' raw raw')
    (hl : LaysVariant s g shape entry raw variant)
    (hl' : LaysVariant t g' shape entry raw' variant')
    (hr : Reflects s.arena s.emptyTuple shape target
      ⟨variant.tag, variant.name⟩ variant.payload variant)
    (hr' : Reflects t.arena t.emptyTuple shape target
      ⟨variant'.tag, variant'.name⟩ variant'.payload variant') :
    variant' = variant.map (counterpart g t g') ∧
    Paired s g t g' variant.payload variant'.payload := by
  have hpayload : Paired s g t g' variant.payload variant'.payload := by
    rcases hl.payload with hraw | hempty
    · rcases hl'.payload with hraw' | hempty'
      · rwa [hraw, hraw']
      · exact paired_of_empty h h' hp hraw hr hempty'
    · rcases hl'.payload with hraw' | hempty'
      · exact (paired_of_empty h' h hp.symm hraw' hr' hempty).symm
      · exact ⟨hempty.2.1, hempty'.2.1, hempty'.2.2.1.trans hempty.2.2.1.symm⟩
  refine ⟨?_, hpayload⟩
  have hname : variant'.name = variant.name := hl'.name.trans hl.name.symm
  have hsame : variant'.dispatch = variant.dispatch ∧ variant'.embeddedTag = variant.embeddedTag ∧
      variant'.declaresTarget = variant.declaresTarget := by
    have hdeclared := declared?_of_paired h h' hpayload shape target
    cases hfound : (structBehind? s.arena variant.payload).bind (declared? shape target) with
    | some literal =>
      obtain ⟨hdispatch, hembedded, hdeclares⟩ := hr.declared literal hfound
      obtain ⟨hdispatch', hembedded', hdeclares'⟩ := hr'.declared literal (hdeclared.trans hfound)
      exact ⟨hdispatch'.trans hdispatch.symm, hembedded'.trans hembedded.symm,
        hdeclares'.trans hdeclares.symm⟩
    | none =>
      obtain ⟨hdispatch, hembedded, hdeclares⟩ := hr.undeclared hfound
      obtain ⟨hdispatch', hembedded', hdeclares'⟩ := hr'.undeclared (hdeclared.trans hfound)
      refine ⟨?_, hembedded'.trans hembedded.symm, hdeclares'.trans hdeclares.symm⟩
      rw [hdispatch', hdispatch, hname]
  obtain ⟨hdispatch, hembedded, hdeclares⟩ := hsame
  have htag : variant'.tag = variant.tag := hl'.tag.trans hl.tag.symm
  have hslot := hpayload.counterpart_eq h'.labels
  cases variant
  cases variant'
  simp_all [VariantLayout.map]

theorem map_variants {shape : EnumShape} {target : String} {entries : List EnumEntry}
    {raws raws' : List TypeId} {variants variants' : List VariantLayout}
    (hp : List.Forall₂ (Paired s g t g') raws raws')
    (hl : LaysVariants s g shape entries raws variants)
    (hl' : LaysVariants t g' shape entries raws' variants')
    (hr : ∀ variant ∈ variants,
      Reflects s.arena s.emptyTuple shape target
        ⟨variant.tag, variant.name⟩ variant.payload variant)
    (hr' : ∀ variant ∈ variants',
      Reflects t.arena t.emptyTuple shape target
        ⟨variant.tag, variant.name⟩ variant.payload variant) :
    variants' = variants.map (VariantLayout.map (counterpart g t g')) ∧
      ∀ variant ∈ variants, ∃ part', Paired s g t g' variant.payload part' := by
  induction hl generalizing raws' variants' with
  | nil =>
    cases hl'
    exact ⟨rfl, nofun⟩
  | cons hfirst _ ih =>
    cases hl' with
    | cons hfirst' hrest' =>
      cases hp with
      | cons hraw hraws =>
        obtain ⟨rfl, hpayload⟩ := map_variant h h' hraw hfirst hfirst' (hr _ List.mem_cons_self)
          (hr' _ List.mem_cons_self)
        obtain ⟨rfl, hall⟩ :=
          ih hraws hrest' (fun variant hv => hr variant (List.mem_cons_of_mem _ hv))
          fun variant hv => hr' variant (List.mem_cons_of_mem _ hv)
        exact ⟨rfl, List.forall_mem_cons.2 ⟨⟨_, hpayload⟩, hall⟩⟩

/-- The layouts of counterparts, enums included. -/
theorem translates_of_informed (hs : s.Informed) (ht : t.Informed) (hp : Paired s g t g' id id')
    {type type' : CompiledType} (htype : s.arena.get? id = some type)
    (htype' : t.arena.get? id' = some type') :
    Translates s g t g' type.layout type'.layout := by
  by_cases henum : ∃ e, type.layout = .enum e
  · obtain ⟨e, he⟩ := henum
    have hlaid := (h.describes id type htype).laid
    have hlaid' := (h'.describes id' type' htype').laid
    rw [hp.node] at hlaid'
    obtain ⟨home, body, bindings, hblock⟩ := hlaid.of_enum he
    obtain ⟨ids, hparts, hids, hlays⟩ := hlaid.of_block hblock
    obtain ⟨ids', hparts', hids', hlays'⟩ := hlaid'.of_block hblock
    have hpaired := hparts.paired hparts' hids hids'
    obtain ⟨tag, raws, variants, rfl, hvariants, heq⟩ := hlays
    obtain ⟨tag', raws', variants', rfl, hvariants', heq'⟩ := hlays'
    rw [h'.options, ← h.options] at heq'
    cases hpaired with
    | cons htag hraws =>
      obtain ⟨rfl, hall⟩ := map_variants h h' hraws hvariants hvariants'
        (fun variant hv => hs id type _ htype heq variant hv)
        fun variant hv => ht id' type' _ htype' heq' variant hv
      rw [heq, heq']
      refine ⟨?_, List.forall_mem_cons.2 ⟨⟨tag', htag⟩, fun part hpart => ?_⟩⟩
      · rw [← htag.counterpart_eq h'.labels]
        rfl
      · obtain ⟨variant, hv, rfl⟩ := List.mem_map.1 hpart
        exact hall variant hv
  · exact translates_of_paired h h' hp htype htype' fun e he => henum ⟨e, he⟩

/-- **The two arenas match** in the slots that have counterparts. -/
theorem matches_of_informed (hs : s.Informed) (ht : t.Informed) : Arena.Matches (counterpart g t g')
    (fun id => ∃ id', Paired s g t g' id id') s.arena t.arena where
  get? := by
    rintro id ⟨id', hp⟩
    obtain ⟨type, type', htype, htype', -⟩ := exists_layouts h h' hp
    refine ⟨type, type', htype, ?_, (translates_of_informed h h' hs ht hp htype htype').1⟩
    rw [hp.counterpart_eq h'.labels, htype']
  closed := by
    rintro id type ⟨id', hp⟩ htype
    obtain ⟨type', htype'⟩ := h'.filled id' hp.right
    exact (translates_of_informed h h' hs ht hp htype htype').2
  injective := by
    rintro id other ⟨id', hp⟩ ⟨other', hother⟩ heq
    rw [hp.counterpart_eq h'.labels, hother.counterpart_eq h'.labels] at heq
    refine h.labels.nodes id other hp.left hother.left ?_
    rw [← hp.node, heq, hother.node]

end Counterparts

end Meaning

end Wireform
