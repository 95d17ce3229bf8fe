import Wireform.Proofs.Meaning.Layouts
import Wireform.Proofs.Session.Resolution

/-!
# Blocks are compiled as they are read

When a block begins, its slot and its namespace stand for its node, and it has made nothing yet. Its
body is then compiled on its own account, and when it ends its slot holds the layout that reading
gives. All the while the session follows the definitions. The node has not begun before, as its text
is new or its owner has just made it.

* `Source.Follows.started`: what holds when a block has begun.
* `tracks_compileBlock`, `tracks_resolveInline`: whole blocks.
-/

namespace Wireform.Meaning

open Session

variable {w : Source} {owner node : Node} {s t u v : Session} {g g' g'' : Legend} {home : ScopeId}
  {key : Option String} {nested : Option ScopeId} {locals : Option (Assoc Definition)}
  {b : Bindings}

/-! ### Beginning -/

/-- From `s` to `t` room has been made for a block: a namespace if it has definitions of its own, a
locked entry if it has a text, and then at least a slot. -/
structure Started (s t : Session) (home : ScopeId) (key : Option String)
    (locals : Option (Assoc Definition)) (b : Bindings) (nested : Option ScopeId) : Prop where
  options : t.options = s.options
  emptyTuple : t.emptyTuple = s.emptyTuple
  get? : ∀ id, t.arena.get? id = s.arena.get? id
  size_le : s.arena.size ≤ t.arena.size
  le_size : t.arena.size ≤ s.arena.size + 1
  slot : ∀ k ∈ key, s.arena.size < t.arena.size
  scopes_size_le : s.scopes.size ≤ t.scopes.size
  scopes : ∀ (i : ℕ) before, s.scopes[i]? = some before → t.scopes[i]? = some
    (if home.index = i
      then { before with entries := before.entries ++ keyed key (.locked ⟨s.arena.size⟩ nested) }
      else before)
  fresh : ∀ (i : ℕ) scope, t.scopes[i]? = some scope → s.scopes.size ≤ i →
    i = s.scopes.size ∧ ∃ definitions, locals = some definitions ∧
    scope = ⟨some home, definitions, [], b⟩
  inner : nested = locals.map fun _ => ⟨s.scopes.size⟩
  inner_lt : ∀ i, nested = some i → i.index < t.scopes.size

theorem openLocals_started (home : ScopeId) (locals : Option (Assoc Definition)) (b : Bindings)
    (hrun : openLocals home b locals s = .ok nested t) : Started s t home none locals b nested := by
  cases locals with
  | none =>
    obtain ⟨rfl, rfl⟩ := EStateM.Result.ok.inj hrun
    refine ⟨rfl, rfl, fun _ => rfl, le_rfl, Nat.le_succ _, nofun, le_rfl, fun i before hb => ?_,
      fun i scope hi hle => ?_, rfl, nofun⟩
    · simp [keyed, hb]
    · rw [Array.getElem?_eq_none hle] at hi
      cases hi
  | some definitions =>
    obtain ⟨rfl, rfl⟩ := EStateM.Result.ok.inj hrun
    refine ⟨rfl, rfl, fun _ => rfl, le_rfl, Nat.le_succ _, nofun, ?_, fun i before hb => ?_,
      fun i scope hi hle => ?_, rfl, ?_⟩
    · simp
    · have hi := (Array.getElem?_eq_some_iff.1 hb).1
      simp [keyed, Array.getElem?_push, Nat.ne_of_lt hi, hb]
    · rw [Array.getElem?_push] at hi
      split at hi
      · next heq => exact ⟨heq, definitions, rfl, (Option.some.inj hi).symm⟩
      · rw [Array.getElem?_eq_none hle] at hi
        cases hi
    · rintro i heq
      obtain rfl := Option.some.inj heq
      simp

theorem beginBlock_started {slot : TypeId} (hhome : home.index < s.scopes.size)
    (hrun : beginBlock home key locals b s = .ok (slot, nested) t)
    (hbegun : Begun s t home key slot nested) : Started s t home key locals b nested := by
  have hslot : slot = ⟨s.arena.size⟩ := congrArg TypeId.mk hbegun.slot_eq
  have hopen : ∃ u, openLocals home b locals { s with arena := s.arena.reserve.2 } = .ok nested u ∧
      ∀ i : ℕ, s.scopes.size ≤ i → t.scopes[i]? = u.scopes[i]? := by
    obtain ⟨inner, u, hopen, hrest⟩ := exists_of_bind_ok (x := openLocals home b locals)
      (s := { s with arena := s.arena.reserve.2 }) hrun
    cases key with
    | none =>
      obtain ⟨hpair, rfl⟩ := EStateM.Result.ok.inj hrest
      obtain ⟨-, rfl⟩ := Prod.mk.inj hpair
      exact ⟨u, hopen, fun _ _ => rfl⟩
    | some k =>
      obtain ⟨hpair, rfl⟩ := EStateM.Result.ok.inj hrest
      obtain ⟨-, rfl⟩ := Prod.mk.inj hpair
      refine ⟨u, hopen, fun i hi => ?_⟩
      refine (getElem?_changeScope u home _ i).trans ?_
      rw [if_neg (by omega)]
  obtain ⟨u, hopen, hsame⟩ := hopen
  have hstarted := openLocals_started home locals b hopen
  refine ⟨hbegun.options, hbegun.emptyTuple, fun id => ?_, ?_, ?_, fun k _ => ?_,
    hbegun.scopes_size_le, ?_, fun i scope hi hle => ?_, hstarted.inner, hbegun.nested⟩
  · rw [hbegun.arena, Arena.get?_reserve]
  · rw [hbegun.arena, Arena.size_reserve]
    exact Nat.le_succ _
  · rw [hbegun.arena, Arena.size_reserve]
  · rw [hbegun.arena, Arena.size_reserve]
    exact Nat.lt_succ_self _
  · rw [← hslot]
    exact hbegun.scopes
  · rw [hsame i hle] at hi
    exact hstarted.fresh i scope hi hle

/-- A block that has not begun may begin: its text, if it has one, is the key, or else its
owner has just made it. -/
structure Ready (w : Source) (g : Legend) (home : ScopeId) (key : Option String)
    (body : BlockBody) (b : Bindings) (node : Node) : Prop where
  block : node.block? = some ⟨g.place home, body.folded, b.folded⟩
  made : g.made node = none
  admitted : w.admits node
  named : ∀ k ∈ key, w.Named (g.place home) k node
  text : ∀ place k body bindings, node = .keyed place k body bindings →
    place = g.place home ∧ k ∈ key
  loose : ∀ owner position place body bindings, node = .loose owner position place body bindings →
    g.Counts owner position

theorem Node.locals?_of_block {block : Block} (h : node.block? = some block) :
    node.locals? = block.body.locals? := by
  rw [Node.locals?, h]
  rfl

theorem Source.definitionsAt_of_block {block : Block} (h : node.block? = some block) :
    w.definitionsAt node = node.locals?.getD [] := by
  cases node with
  | root => cases h
  | _ => rfl

namespace Started

variable (ho : Started s t home key locals b nested)

include ho

theorem agrees (node : Node) : Agrees s g t (g.begin s node) where
  options := ho.options
  arena := ⟨ho.size_le, fun id _ hid => (ho.get? id).trans hid⟩
  scopes_le := ho.scopes_size_le
  node := fun _ hid => g.begin_node_of_lt node hid
  place := fun _ hi => g.begin_place_of_lt node hi

theorem inherits {i : ScopeId} (hi : i.index < s.scopes.size) :
    Inherits (s.scope i) (t.scope i) := by
  rw [scope_eq (ho.scopes _ _ (getElem?_scopes hi))]
  split
  · refine ⟨rfl, rfl, rfl, fun k hk => ?_⟩
    rw [Assoc.keys, List.map_append]
    exact List.mem_append_left _ hk
  · exact .refl _

/-- The only new entry is the locked one. -/
theorem entry {i : ScopeId} (hi : i.index < t.scopes.size) {k : String} {entry : Entry}
    (he : (k, entry) ∈ (t.scope i).entries) :
    i.index < s.scopes.size ∧ (k, entry) ∈ (s.scope i).entries ∨
      i = home ∧ k ∈ key ∧ entry = .locked ⟨s.arena.size⟩ nested := by
  rcases Nat.lt_or_ge i.index s.scopes.size with hold | hnew
  · rw [scope_eq (ho.scopes _ _ (getElem?_scopes hold))] at he
    split at he
    · next heq =>
      rcases List.mem_append.1 he with he | he
      · exact Or.inl ⟨hold, he⟩
      · obtain ⟨k', hk', hpair⟩ := List.mem_map.1 he
        obtain ⟨rfl, rfl⟩ := Prod.mk.inj hpair
        exact Or.inr ⟨congrArg ScopeId.mk heq.symm, by simpa using hk', rfl⟩
    · exact Or.inl ⟨hold, he⟩
  · obtain ⟨-, definitions, -, heq⟩ := ho.fresh _ _ (getElem?_scopes hi) hnew
    rw [heq] at he
    cases he

end Started

/-- A node that has not begun is none that has. -/
theorem Ready.ne {body : BlockBody} {other : Node} (hready : Ready w g home key body b node)
    (hother : (g.made other).isSome) : other ≠ node := by
  rintro rfl
  rw [hready.made] at hother
  cases hother

section Starting

variable {body : BlockBody} (h : w.Follows s g) (ho : Started s t home key body.locals? b nested)
  (hready : Ready w g home key body b node)

include h ho hready

/-- The namespace of the block and the locked entry stand for the block. -/
theorem Source.Follows.started_maps (hs : s.Valid) (hhome : home.index < s.scopes.size) :
    w.Maps t (g.begin s node) := by
  have hlocals : node.locals? = body.locals? :=
    (Node.locals?_of_block hready.block).trans (folded_locals? body)
  have hhome' : (g.begin s node).place home = g.place home := g.begin_place_of_lt node hhome
  refine h.maps.later hs (ho.agrees node) (fun i hi => ho.inherits hi) (fun i hle hlt => ?_)
    fun i hi k entry he => ?_
  · obtain ⟨hindex, definitions, hdefinitions, hscope⟩ := ho.fresh _ _ (getElem?_scopes hlt) hle
    obtain rfl : i = ⟨s.scopes.size⟩ := congrArg ScopeId.mk hindex
    rw [g.begin_place, hscope]
    refine ⟨fun name => ?_, ?_, ?_⟩
    · rw [Source.definitionsAt_of_block hready.block, hlocals, hdefinitions]
      rfl
    · rw [Node.bindings, hready.block]
      rfl
    · rw [hready.block, Option.map_some, hhome']
      rfl
  · refine (ho.entry hi he).imp_right ?_
    rintro ⟨rfl, hk, rfl⟩
    rw [hhome']
    refine ⟨ho.slot k hk, ?_, fun inner hinner => ⟨ho.inner_lt inner hinner, ?_⟩⟩
    · rw [g.begin_node]
      exact hready.named k hk
    · rw [ho.inner, Option.map_eq_some_iff] at hinner
      obtain ⟨definitions, hdefinitions, rfl⟩ := hinner
      rw [g.begin_place, g.begin_node, hlocals, hdefinitions]
      exact ⟨rfl, rfl⟩

omit h in
/-- The block is found under its text, or its owner has just made it. -/
theorem Started.begins (hhome : home.index < s.scopes.size) :
    Labels.Begins t (g.begin s node) node := by
  cases hnode : node with
  | keyed place k body' bindings =>
    obtain ⟨rfl, hk⟩ := hready.text place k body' bindings hnode
    refine ⟨home, hhome.trans_le ho.scopes_size_le, g.begin_place_of_lt _ hhome, ?_⟩
    rw [scope_eq (ho.scopes _ _ (getElem?_scopes hhome)), if_pos rfl, Assoc.keys, List.map_append]
    obtain rfl := Option.mem_def.1 hk
    exact List.mem_append_right _ (List.mem_singleton_self _)
  | loose owner position place body' bindings =>
    obtain ⟨k, hk, hlt⟩ := hready.loose owner position place body' bindings hnode
    refine ⟨k, ?_, hlt⟩
    rw [← hnode, g.begin_of_ne node owner s (hready.ne (by rw [hk]; rfl)), hk]
  | _ => trivial

theorem Source.Follows.started_slot (hs : s.Valid) :
    Labels.NewSlot s g t (g.begin s node) ⟨s.arena.size⟩ := by
  have hblock : ((g.begin s node).node ⟨s.arena.size⟩).block? = some _ :=
    (g.begin_node node s).symm ▸ hready.block
  refine .of_block hblock rfl (fun old hold heq => ?_) ?_ ?_
  · rw [g.begin_node] at heq
    refine hready.ne (h.labels.begun old hold ?_) heq
    rw [heq, hready.block]
    rfl
  · rw [g.begin_node, g.begin_made]
    rfl
  · rw [ho.emptyTuple]
    exact next_ne_emptyTuple hs

omit ho in
theorem Source.Follows.started_place : Labels.NewPlace s g (g.begin s node) ⟨s.scopes.size⟩ := by
  refine ⟨rfl, fun old hold heq => ?_, ?_⟩
  · rw [g.begin_place] at heq
    rcases h.labels.opened old hold with hroot | hopened
    · have hblock := hready.block
      rw [← heq, hroot] at hblock
      cases hblock
    · exact hready.ne hopened heq
  · rw [g.begin_place, g.begin_made]
    rfl

/-- **A session in which a block has begun follows the definitions.** -/
theorem Source.Follows.started (hs : s.Valid) (hhome : home.index < s.scopes.size) :
    w.Follows t (g.begin s node) := by
  have hag := ho.agrees (g := g) node
  have hnew : ∀ id : TypeId, s.arena.size ≤ id.index → id.index < t.arena.size →
      id = ⟨s.arena.size⟩ := by
    intro id hle hlt
    have := ho.le_size
    exact congrArg TypeId.mk (by omega)
  refine ⟨ho.options.trans h.options, h.started_maps ho hready hs hhome,
    h.describes_later hag fun id type hid => Or.inl ?_, ?_,
    h.admitted.later hag fun id hle hlt _ => ?_⟩
  · rwa [← ho.get?]
  · refine h.labels.later hag (fun i hi k hk => (ho.inherits hi).keys k hk) (fun other k hk => ?_)
      (fun other hother => ?_)
      (fun id _ => by rw [ho.emptyTuple]) (fun id hle hlt => ?_) fun i hle hlt => ?_
    · exact ⟨k, le_rfl, (g.begin_of_ne node other s (hready.ne (by rw [hk]; rfl))).trans hk⟩
    · by_cases heq : other = node
      · subst heq
        exact Or.inr (ho.begins hready hhome)
      · rw [g.begin_of_ne node other s heq] at hother
        exact Or.inl hother
    · obtain rfl := hnew id hle hlt
      exact h.started_slot ho hready hs
    · obtain ⟨hindex, -⟩ := ho.fresh _ _ (getElem?_scopes hlt) hle
      obtain rfl : i = ⟨s.scopes.size⟩ := congrArg ScopeId.mk hindex
      exact h.started_place hready
  · obtain rfl := hnew id hle hlt
    rw [g.begin_node]
    exact hready.admitted

end Starting

/-! ### Ending -/

theorem mem_keys_settled {slot : TypeId} {entries : Assoc Entry} {k : String}
    (h : k ∈ entries.keys) :
    k ∈ (settled key slot entries).keys := by
  cases key with
  | none => exact h
  | some k' =>
    change k ∈ (entries.put k' _).keys
    rw [Assoc.keys_put]
    split
    · exact h
    · exact List.mem_append_left _ h

/-- **A session in which a block has ended follows the definitions.** -/
theorem Source.Follows.ended (h : w.Follows u g) (hu : u.Valid) {slot : TypeId}
    {type : CompiledType} (he : Ended u v home key slot type) (hslot : slot.index < u.arena.size)
    (hextends : Arena.Extends u.arena v.arena)
    (hnamed : ∀ k ∈ key, w.Named (g.place home) k (g.node slot))
    (hnew : w.Describes u g (g.node slot) type) : w.Follows v g := by
  have hag : Agrees u g v g :=
    ⟨he.options, hextends, he.scopes_size.symm.le, fun _ _ => rfl, fun _ _ => rfl⟩
  have hscope : ∀ i : ScopeId, i.index < u.scopes.size →
      v.scope i = settledScope home key slot i.index (u.scope i) := by
    intro i hi
    refine scope_eq ?_
    rw [he.scopes, getElem?_scopes hi]
    rfl
  have hsize : v.arena.size = u.arena.size := by rw [he.arena, Arena.size_fill]
  refine ⟨he.options.trans h.options, ?_, h.describes_later hag fun id found hid => ?_, ?_,
    h.admitted.same hag hsize⟩
  · refine h.maps.later hu hag (fun i hi => ?_) (fun i hle hlt => ?_) fun i hi k entry hentry => ?_
    · rw [hscope i hi, settledScope]
      split
      · exact ⟨rfl, rfl, rfl, fun k => mem_keys_settled⟩
      · exact .refl _
    · rw [he.scopes_size] at hlt
      exact absurd hlt (Nat.not_lt_of_le hle)
    · rw [he.scopes_size] at hi
      rw [hscope i hi, settledScope] at hentry
      split at hentry
      · next heq =>
        refine (mem_settled hentry).imp (fun hold => ⟨hi, hold⟩) ?_
        rintro ⟨hk, rfl⟩
        obtain rfl : home = i := congrArg ScopeId.mk heq
        exact ⟨hslot.trans_le hextends.size_le, hnamed k hk⟩
      · exact Or.inl ⟨hi, hentry⟩
  · rw [he.arena, Arena.get?_fill] at hid
    split at hid
    · next hsame =>
      obtain rfl := Option.some.inj hid
      obtain rfl : slot = id := congrArg TypeId.mk hsame.1
      exact Or.inr (hag.describes hnew)
    · exact Or.inl hid
  · refine h.labels.later hag (fun i hi k hk => ?_) (fun _ k hk => ⟨k, le_rfl, hk⟩)
      (fun _ => Or.inl)
      (fun id _ => by rw [he.emptyTuple]) (fun id hle hlt => ?_) fun i hle hlt => ?_
    · rw [hscope i hi, settledScope]
      split
      · exact mem_keys_settled hk
      · exact hk
    · rw [hsize] at hlt
      exact absurd hlt (Nat.not_lt_of_le hle)
    · rw [he.scopes_size] at hlt
      exact absurd hlt (Nat.not_lt_of_le hle)

/-! ### Whole blocks -/

/-- Asking for a block that is admitted gives it. -/
theorem reads_ask (h : node.block?.isSome → w.admits node) (k : ℕ) :
    Reads (fun _ => w.ask node) k node k := by
  unfold Source.ask
  rw [if_pos h]
  exact .pure node k

/-- A block that is asked for is admitted. -/
theorem Fed.ask {k : ℕ} (h : Fed (fun _ => w.ask node) k) : node.block?.isSome → w.admits node := by
  obtain ⟨enough, h⟩ := h
  have hfed := h enough le_rfl
  unfold Source.ask at hfed
  by_contra hadmits
  rw [if_neg hadmits] at hfed
  exact hfed ⟨k, rfl⟩

/-- A block for which there is an answer is admitted. -/
theorem Tracks.ask {α : Type} {y : Compile α} {rel : Node → α → Session → Legend → Prop}
    (h : (node.block?.isSome → w.admits node) → Tracks w owner s g (fun w _ => w.ask node) y rel) :
    Tracks w owner s g (fun w _ => w.ask node) y rel where
  gives := fun a t k hrun hk hfed => (h hfed.ask).gives a t k hrun hk hfed
  stops := fun stop t k hrun hk hanswered hanswers =>
    (h hanswers.fed.ask).stops stop t k hrun hk hanswered hanswers

/-- What stands in a session may be asked for. -/
theorem Stands.reads_ask {id : TypeId} (h : Stands node id s g) (k : ℕ) :
    w.Under s g fun w => Reads (fun _ => w.ask node) k node k := by
  refine fun admits hcovers => Meaning.reads_ask (fun hblock => ?_) k
  obtain ⟨hid, rfl⟩ := h
  exact hcovers id hid hblock

/-- While a block is compiled the blocks around it make nothing. -/
theorem Continues.outside (hcont : Continues node t (g.begin s node) u g')
    (hmade : g.made node = none) {other : Node} (hother : (g.made other).isSome) :
    g'.made other = g.made other := by
  have hne : other ≠ node := by
    rintro rfl
    rw [hmade] at hother
    cases hother
  have hsame := g.begin_of_ne node other s hne
  rw [hcont.made other hne (by rwa [hsame]), hsame]

/-- Seen from outside, a block has begun and ended. What is new beside its own slot
was made by its body. -/
theorem Continues.block (hadv : Advances s v) (hmade : g.made node = none)
    (hag : Agrees s g t (g.begin s node)) (hsize : t.arena.size ≤ s.arena.size + 1)
    (hcont : Continues node t (g.begin s node) u g') (hplace : g''.place = g'.place)
    (hmade' : g''.made = g'.made)
    (hold : ∀ id : TypeId, id.index < u.arena.size → g''.node id = g'.node id)
    (hnew : ∀ id : TypeId, u.arena.size ≤ id.index → id.index < v.arena.size → g''.node id = node)
    (hslot : s.arena.size < t.arena.size → g'.node ⟨s.arena.size⟩ = node) :
    Continues owner s g v g'' where
  advances := hadv
  node := by
    intro id hid
    have hid' := hid.trans_le hag.arena.size_le
    rw [hold id (hid'.trans_le hcont.agrees.arena.size_le), hcont.node id hid', hag.node id hid]
  place := by
    intro i hi
    rw [hplace, hcont.place i (hi.trans_le hag.scopes_le), hag.place i hi]
  made := fun other _ hother => by rw [hmade', hcont.outside hmade hother]
  owner := fun k hk => ⟨k, le_rfl, by rw [hmade', hcont.outside hmade (by rw [hk]; rfl), hk]⟩
  fresh := by
    intro id hle hlt hblock
    rcases Nat.lt_or_ge id.index u.arena.size with hid | hid
    · rw [hold id hid] at hblock ⊢
      rcases Nat.lt_or_ge id.index t.arena.size with hid' | hid'
      · obtain rfl : id = ⟨s.arena.size⟩ := congrArg TypeId.mk (by omega)
        rw [hslot hid']
        exact hmade
      · -- what the body has made had not begun when the body did
        have hfresh := hcont.fresh id hid' hid hblock
        have hne : g'.node id ≠ node := by
          intro heq
          rw [heq, g.begin_made] at hfresh
          cases hfresh
        rwa [g.begin_of_ne node _ s hne] at hfresh
    · rw [hnew id hid hlt]
      exact hmade

section Resolved

variable {resolve : Resolver} {body : BlockBody}

/-- The namespace in which a block resolves its references is that of its own
definitions, if there are any. -/
theorem Started.inside (ho : Started s t home key body.locals? b nested)
    (hhome : home.index < s.scopes.size) (node : Node) : (nested.getD home).index < t.scopes.size ∧
      (g.begin s node).place (nested.getD home) =
        node.inside ⟨g.place home, body.folded, b.folded⟩ := by
  have hinner := ho.inner
  unfold Node.inside
  dsimp only
  rw [folded_locals?]
  cases hlocals : body.locals? with
  | none =>
    rw [hlocals, Option.map_none] at hinner
    subst hinner
    exact ⟨hhome.trans_le ho.scopes_size_le, g.begin_place_of_lt node hhome⟩
  | some definitions =>
    rw [hlocals, Option.map_some] at hinner
    subst hinner
    exact ⟨ho.inner_lt _ rfl, g.begin_place node s⟩

/-- The type of a block whose body has been compiled is that of its node. -/
theorem Started.describes (ho : Started s t home key body.locals? b nested)
    (hready : Ready w g home key body b node) {k : ℕ} {parts : List Node} {r : Layout × Size}
    (hreads : w.Under u g' fun w =>
      Reads
      (fun levels => w.parts (w.oracle levels) node ⟨g.place home, body.folded, b.folded⟩) 0 parts
        k)
    (hcont : Continues node t (g.begin s node) u g')
    (hcomposes : Composes w b.folded body.folded parts r u g') (ident : String) :
    w.Describes u g' node ⟨ident, r.2, r.1, nested⟩ := by
  obtain ⟨ids, ⟨rfl, hids⟩, hlays, hformed, hbound⟩ := hcomposes
  have hparts : w.Under u g' fun w =>
      w.HasParts node ⟨g.place home, body.folded, b.folded⟩ (ids.map g'.node) :=
        hreads.map fun _ hreads => ⟨k, hreads⟩
  constructor
  case scope =>
    intro i hi
    have hlt := ho.inner_lt i hi
    have hinner := ho.inner
    rw [show nested = some i from hi] at hinner
    obtain ⟨definitions, hlocals, rfl⟩ := Option.map_eq_some_iff.1 hinner.symm
    refine ⟨hlt.trans_le hcont.advances.scopes_size_le, ?_, ?_⟩
    · rw [hcont.place _ hlt, g.begin_place]
    · rw [Node.locals?_of_block hready.block, folded_locals?, hlocals]
      rfl
  case bound => exact hparts.map₂ hbound fun _ hparts hbound => hparts.bounds hready.block hbound
  case laid => exact .block hready.block hparts hids hlays
  case formed =>
    intro block hblock
    obtain rfl := Option.some.inj (hready.block.symm.trans hblock)
    exact hformed
  case named =>
    intro place k body' bindings hnode hplain
    obtain ⟨rfl, hk⟩ := hready.text place k body' bindings hnode
    exact (hready.named k hk).plain hplain

/-- **The body of a block that has begun** is compiled on the block's own account. -/
theorem Started.tracks (hr : Tracked w resolve) (h : w.Follows s g) (hs : s.Valid) (ht : t.Valid)
    (hhome : home.index < s.scopes.size) (ho : Started s t home key body.locals? b nested)
    (hready : Ready w g home key body b node)
    (hbuiltin : ∀ builtin arguments, body = .builtin builtin arguments → b = []) (ident : String) :
    Tracks w node t (g.begin s node)
      (fun w levels => w.parts (w.oracle levels) node ⟨g.place home, body.folded, b.folded⟩)
      (compileBody resolve home nested ident b body) (Composes w b.folded body.folded) := by
  obtain ⟨hscope, hplace⟩ := ho.inside (g := g) hhome node
  refine tracks_compileBody hr ht (h.started ho hready hs hhome) hscope hplace ident rfl rfl ?_
    fun hanswered =>
    hanswered.formed node _ hready.admitted hready.block
  rintro builtin arguments rfl
  exact ⟨ho.inner, hbuiltin builtin arguments rfl⟩

/-- **A block is compiled as it is read.** -/
theorem tracks_compileBlock (hclear : w.Clear) (hr : Tracked w resolve)
    (hsound : resolve.Sound) (hs : s.Valid) (h : w.Follows s g) (hhome : home.index < s.scopes.size)
    (hkey : ∀ k ∈ key, k ∉ (s.scope home).entries.keys)
    (hadmits : ∀ k ∈ key, (s.scope home).Admits home.index k) (ident : String)
    (hbuiltin : ∀ builtin arguments, body = .builtin builtin arguments → b = [])
    (hready : Ready w g home key body b node) :
    Tracks w owner s g (fun w _ => w.ask node)
      (compileBlock resolve home key ident body b) Stands := by
  have htracks : ∀ {nested t}, beginBlock home key body.locals? b s =
      .ok (⟨s.arena.size⟩, nested) t →
      Begun s t home key ⟨s.arena.size⟩ nested → Started s t home key body.locals? b nested ∧
      Tracks w node t (g.begin s node) _ (compileBody resolve home nested ident b body) _ :=
      fun hbegin hbegun =>
    have hstarted := beginBlock_started hhome hbegin hbegun
    ⟨hstarted, hstarted.tracks hr h hs (hbegun.valid hs hhome hadmits) hhome hready hbuiltin ident⟩
  constructor
  case stops =>
    intro stop u k hrun hk hanswered _
    rcases stop_of_compileBlock hhome hkey hrun with rfl | ⟨nested, t, hbegin, hbegun, hbody⟩
    · exact .depth _ _
    · exact (htracks hbegin hbegun).2.stops stop u 0 hbody (g.begin_made node s) hanswered
        (hanswered.parts node _ hready.admitted hready.block)
  case gives =>
    intro id v k hrun hk _
    have hadv : Advances s v := by
      refine ((sound_compileBlock hs hhome hkey hadmits ident body b ?_).of_ok hrun).1
      exact fun t nested ht hhome hnested => sound_compileBody hsound ht hhome hnested _ _ _
    obtain ⟨nested, t, layout, size, u, hbegin, hbegun, hbody, hended⟩ :=
      exists_of_compileBlock hhome hkey hrun
    obtain rfl : id = ⟨s.arena.size⟩ := congrArg TypeId.mk hbegun.slot_eq
    obtain ⟨hstarted, htracks⟩ := htracks hbegin hbegun
    obtain ⟨parts, k', g', hparts, -, hcont, hfollows', hcomposes⟩ :=
      htracks.gives _ u 0 hbody (g.begin_made node s)
      (hclear.closed node _ hready.admitted hready.block)
    have hag := hstarted.agrees (g := g) node
    have hnode : g'.node ⟨s.arena.size⟩ = node := by
      rw [hcont.node _ hbegun.slot_lt, g.begin_node]
    have hextends : Arena.Extends u.arena v.arena := by
      rw [hended.arena]
      exact hbegun.fill_extends hcont.advances.toGrows _
    have hlt : s.arena.size < u.arena.size := hbegun.slot_lt.trans_le hcont.agrees.arena.size_le
    have hfollows'' : w.Follows v g' := by
      refine hfollows'.ended hcont.advances.valid hended hlt hextends (fun k hk => ?_) ?_
      · rw [hcont.place home (hhome.trans_le hag.scopes_le), hag.place home hhome, hnode]
        exact hready.named k hk
      · rw [hnode]
        exact hstarted.describes hready hparts hcont hcomposes ident
    have hsize : v.arena.size = u.arena.size := by rw [hended.arena, Arena.size_fill]
    have houter : Continues owner s g v g' := by
      refine .block hadv hready.made hag hstarted.le_size hcont rfl rfl (fun _ _ => rfl)
        (fun id hle hlt => ?_)
        fun _ => hnode
      rw [hsize] at hlt
      exact absurd hlt (Nat.not_lt_of_le hle)
    have hstands : Stands node ⟨s.arena.size⟩ v g' := ⟨hsize ▸ hlt, hnode⟩
    refine ⟨node, k, g', hstands.reads_ask k, ?_, houter, hfollows'', hstands⟩
    rw [hcont.outside hready.made (by rw [hk]; rfl), hk]

/-! ### Nodes without a text -/

/-- A session still follows the definitions when a block has counted one more node. -/
theorem Source.Follows.count (h : w.Follows s g) (hs : s.Valid) {k : ℕ}
    (hk : g.made owner = some k) :
    w.Follows s (g.count owner) := by
  have hag : Agrees s g s (g.count owner) := ⟨rfl, .refl _, le_rfl, fun _ _ => rfl, fun _ _ => rfl⟩
  refine ⟨h.options, ?_, h.describes_later hag fun _ _ => Or.inl, ?_, h.admitted.same hag rfl⟩
  · exact h.maps.later hs hag (fun _ _ => .refl _)
      (fun i hle hlt => absurd hlt (Nat.not_lt_of_le hle))
      fun i hi key entry he => Or.inl ⟨hi, he⟩
  · refine h.labels.later hag (fun _ _ _ => id) (fun node j hj => ?_) (fun node hnode => Or.inl ?_)
      (fun _ _ => Iff.rfl)
      (fun id hle hlt => absurd hlt (Nat.not_lt_of_le hle))
      fun i hle hlt => absurd hlt (Nat.not_lt_of_le hle)
    · by_cases heq : node = owner
      · subst heq
        exact ⟨j + 1, Nat.le_succ j, g.count_made node hj⟩
      · exact ⟨j, le_rfl, (g.count_of_ne owner node heq).trans hj⟩
    · by_cases heq : node = owner
      · rw [heq, hk]
        rfl
      · rwa [← g.count_of_ne owner node heq]

theorem Continues.count (hs : s.Valid) (g : Legend) (owner : Node) :
    Continues owner s g s (g.count owner) where
  advances := .refl hs
  node := fun _ _ => rfl
  place := fun _ _ => rfl
  made := fun node hne _ => g.count_of_ne owner node hne
  owner := fun k hk => ⟨k + 1, Nat.le_succ k, g.count_made owner hk⟩
  fresh := fun _ hle hlt => absurd hlt (Nat.not_lt_of_le hle)

/-- A block counts one more node before it makes it. -/
theorem Tracks.next {α β : Type} {f : Source → ℕ → ℕ → Reading β} {y : Compile α}
    {rel : β → α → Session → Legend → Prop}
    (hs : s.Valid) (h : w.Follows s g)
    (hf : ∀ k, g.made owner = some k → w.Follows s (g.count owner) →
      Tracks w owner s (g.count owner) (fun w levels => f w levels k) y rel) :
    Tracks w owner s g (fun w levels => Reading.next >>= f w levels) y rel := by
  have hnext : ∀ k, Reads (fun _ => Reading.next) k k (k + 1) := fun k => ⟨0, fun _ _ => rfl⟩
  constructor
  case gives =>
    intro a t k hrun hk hfed
    obtain ⟨b, k', g', hreads, hk', hcont, hrest⟩ :=
      (hf k hk (h.count hs hk)).gives a t (k + 1) hrun
      (g.count_made owner hk) (hfed.right (hnext k))
    exact ⟨b, k', g', hreads.map fun _ hreads => (hnext k).bind hreads, hk',
      (Continues.count hs g owner).trans hcont, hrest⟩
  case stops =>
    intro stop t k hrun hk hanswered hanswers
    exact (hf k hk (h.count hs hk)).stops stop t (k + 1) hrun (g.count_made owner hk) hanswered
      (hanswers.right (hnext k))

theorem loose_ne (owner : Node) (position : ℕ) (place : Node) (body : BlockBody)
    (bindings : Bindings) :
    Node.loose owner position place body bindings ≠ owner := by
  intro heq
  have hsize := congrArg sizeOf heq
  simp only [Node.loose.sizeOf_spec] at hsize
  omega

/-- A block that its owner has just counted may begin. -/
theorem Source.Follows.ready_loose (h : w.Follows s g) {k : ℕ} (hk : g.made owner = some k)
    (home : ScopeId) (body : BlockBody) (b : Bindings)
    (hadmits : w.admits (.loose owner k (g.place home) body.folded b.folded)) :
    Ready w (g.count owner) home none body b
      (.loose owner k (g.place home) body.folded b.folded) where
  block := rfl
  admitted := hadmits
  made := by
    rw [g.count_of_ne _ _ (loose_ne _ _ _ _ _)]
    by_contra hne
    obtain ⟨made, hmade, hlt⟩ := h.labels.loose _ _ _ _ _ (Option.isSome_iff_ne_none.2 hne)
    obtain rfl := Option.some.inj (hk.symm.trans hmade)
    exact Nat.lt_irrefl _ hlt
  named := nofun
  text := nofun
  loose := by
    rintro _ _ _ _ _ ⟨⟩
    exact ⟨k + 1, g.count_made owner hk, Nat.lt_succ_self k⟩

theorem openLocals_arena (hrun : openLocals home b locals s = .ok nested t) :
    t.arena = s.arena := by
  cases locals with
  | none | some definitions =>
    obtain ⟨-, rfl⟩ := EStateM.Result.ok.inj hrun
    rfl

/-- While a block without a slot is compiled, no slot stands for it. -/
theorem Source.Follows.node_ne (h : w.Follows s g) (ho : Started s t home key locals b nested)
    (hsize : t.arena.size = s.arena.size) {block : Block} (hblock : node.block? = some block)
    (hmade : g.made node = none) (hcont : Continues node t (g.begin s node) u g') {old : TypeId}
    (hold : old.index < u.arena.size) : g'.node old ≠ node := by
  intro heq
  have hsome : (g'.node old).block?.isSome := by
    rw [heq, hblock]
    rfl
  rcases Nat.lt_or_ge old.index t.arena.size with hlt | hge
  · rw [hcont.node old hlt, (ho.agrees node).node old (hsize ▸ hlt)] at heq hsome
    have hbegun := h.labels.begun old (hsize ▸ hlt) hsome
    rw [heq, hmade] at hbegun
    cases hbegun
  · have hfresh := hcont.fresh old hge hold hsome
    rw [heq, Legend.begin_made] at hfresh
    cases hfresh

/-- The slot of such a block is given out at the end. -/
theorem Source.Follows.put (h : w.Follows s g) (hs : s.Valid) {block : Block}
    (hblock : node.block? = some block) (hmade : (g.made node).isSome)
    (hnew : ∀ old : TypeId, old.index < s.arena.size → g.node old ≠ node) {type : CompiledType}
    (hdescribes : w.Describes s g node type) (hadmits : w.admits node) :
    w.Follows { s with arena := (s.arena.push type).2 } (g.put ⟨s.arena.size⟩ node) := by
  have hag : Agrees s g { s with arena := (s.arena.push type).2 } (g.put ⟨s.arena.size⟩ node) :=
    ⟨rfl, extends_push _ _, le_rfl, fun id hid => g.put_of_lt hid node, fun _ _ => rfl⟩
  refine h.push hs hag rfl rfl (fun _ j hj => ⟨j, le_rfl, hj⟩) (fun _ => Or.inl)
    (fun _ _ => Iff.rfl) ?_ ?_ ?_
  · have hput : ((g.put ⟨s.arena.size⟩ node).node ⟨s.arena.size⟩).block? = some block :=
      (g.put_self _ node).symm ▸ hblock
    refine .of_block hput rfl (fun old hold => ?_) ?_ (next_ne_emptyTuple hs)
    · rw [Legend.put_self]
      exact hnew old hold
    · rw [Legend.put_self]
      exact hmade
  · rw [Legend.put_self]
    exact hag.describes hdescribes
  · rw [Legend.put_self]
    exact fun _ => hadmits

/-- **An inline struct is compiled as it is read.** -/
theorem tracks_resolveInline (hclear : w.Clear) (hr : Tracked w resolve)
    (hsound : resolve.Sound) (hs : s.Valid) (h : w.Follows s g) (hhome : home.index < s.scopes.size)
    (whole : TypeRef) (body : StructBody) :
    Tracks w owner s g (fun w _ => w.resolveInline owner (g.place home) (foldedBody body) b.folded)
      (resolveInline resolve home whole body b) Stands := by
  refine Tracks.next hs h fun k hk hcounted => Tracks.ask fun hadmits => ?_
  have hready := h.ready_loose hk home (.definition (.struct body)) b (hadmits rfl)
  change Tracks w owner s (g.count owner) (fun w _ => w.ask (Node.loose owner k (g.place home)
    (BlockBody.definition (.struct body)).folded b.folded)) _ Stands
  generalize hnode : Node.loose owner k (g.place home)
    (BlockBody.definition (.struct body)).folded b.folded = node
    at hready ⊢
  have htracks : ∀ {inner t}, openLocals home b (Definition.struct body).locals? s = .ok inner t →
      Started s t home none (BlockBody.definition (.struct body)).locals? b inner ∧
      Tracks w node t ((g.count owner).begin s node) _
      (compileBody resolve home inner "" b (.definition (.struct body)))
        _ := fun hopen =>
    have hstarted := openLocals_started home _ b hopen
    ⟨hstarted, hstarted.tracks hr hcounted hs ((sound_openLocals hs hhome b _).of_ok hopen).1.valid
      hhome hready nofun ""⟩
  constructor
  case stops =>
    intro stop u k' hrun hk' hanswered _
    rcases error_of_bind hrun with hopen | ⟨inner, t, hopen, hrun⟩
    · obtain ⟨inner, scopes, hok, -⟩ :=
        openLocals_eq (s := s) home (Definition.struct body).locals? b
      cases hok.symm.trans hopen
    rcases error_of_bind hrun with hbody | ⟨_, _, -, hpush⟩
    · exact (htracks hopen).2.stops stop u 0 hbody ((g.count owner).begin_made node s) hanswered
        (hanswered.parts node _ hready.admitted hready.block)
    · cases hpush
  case gives =>
    intro id v k' hrun hk' _
    have hadv : Advances s v := ((sound_resolveInline hsound hs hhome whole body b).of_ok hrun).1
    obtain ⟨inner, t, hopen, hrun⟩ := exists_of_bind_ok hrun
    obtain ⟨⟨layout, size⟩, u, hbody, hpush⟩ := exists_of_bind_ok hrun
    obtain ⟨rfl, rfl⟩ := EStateM.Result.ok.inj hpush
    obtain ⟨hstarted, htracks⟩ := htracks hopen
    obtain ⟨parts, k'', g', hparts, -, hcont, hfollows', hcomposes⟩ := htracks.gives _ u 0 hbody
      ((g.count owner).begin_made node s) (hclear.closed node _ hready.admitted hready.block)
    have hag := hstarted.agrees (g := g.count owner) node
    have hsize : t.arena.size = s.arena.size := by rw [openLocals_arena hopen]
    have hdescribes := hstarted.describes hready hparts hcont hcomposes whole.describe
    let v : Session := { u with arena := (u.arena.push ⟨whole.describe, size, layout, inner⟩).2 }
    have hvsize : v.arena.size = u.arena.size + 1 := Arena.size_push _ _
    have hmade : (g'.made node).isSome := by
      obtain ⟨j, -, hj⟩ := hcont.owner 0 ((g.count owner).begin_made node s)
      rw [hj]
      rfl
    have hfollows'' : w.Follows v (g'.put ⟨u.arena.size⟩ node) :=
      hfollows'.put hcont.advances.valid hready.block hmade
        (fun old hold => hcounted.node_ne hstarted hsize hready.block hready.made hcont hold)
        hdescribes hready.admitted
    have houter : Continues owner s (g.count owner) v (g'.put ⟨u.arena.size⟩ node) := by
      refine .block hadv hready.made hag (hsize.le.trans (Nat.le_succ _)) hcont rfl rfl
        (fun id hid => g'.put_of_lt hid node) (fun id hle hlt => ?_)
        fun hlt => absurd hlt (Nat.not_lt_of_le hsize.le)
      obtain rfl : id = ⟨u.arena.size⟩ := congrArg TypeId.mk (by omega)
      exact g'.put_self _ node
    have hstands : Stands node ⟨u.arena.size⟩ v (g'.put ⟨u.arena.size⟩ node) :=
      ⟨hvsize ▸ Nat.lt_succ_self _, g'.put_self _ node⟩
    refine ⟨node, k', g'.put ⟨u.arena.size⟩ node, hstands.reads_ask k', ?_, houter,
      hfollows'', hstands⟩
    refine (hcont.outside hready.made ?_).trans hk'
    rw [hk']
    rfl

end Resolved

end Wireform.Meaning
