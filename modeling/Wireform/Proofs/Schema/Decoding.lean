import Wireform.Proofs.Codec.Room
import Wireform.Proofs.Codec.Termination
import Wireform.Proofs.Schema.Reached

/-!
# What decoding depends on, and where it ends

In a schema that has been reached, a value that is decoded from the front of some bytes
depends on the bytes that it takes and on nothing behind them. Compiling rejects types that
contain themselves, so decoding ends unless an enum is entered again from its own tag, or
from a payload behind a tag without bytes: these are not counted among the parts of an enum.

* `Reached.decodePrefix_take`: the bytes taken give the same value, whatever follows them.
* `Reached.decode_iff_freely`: comparing counts with the input that is left turns down nothing
  that would be read.
* `Reached.decode_ends`: decoding ends, if no enum is entered again before a byte is taken.
* `ownTag_endless`: an enum that is its own tag compiles, and decoding it never ends.
-/

namespace Wireform.Schema

/-- An enum whose tag has the type of the enum. -/
def ownTag : List (String × Definition) :=
  [("E", .enum ((EnumBody.indexed .object [("A", .struct .empty)]).withTagType (.named "E")))]

/-- Binary trees: a node holds trees, behind the tag that tells it from a leaf. -/
def tree : List (String × Definition) :=
  [("Tree", .enum (.indexed .object [("Leaf", .struct .empty),
    ("Node", .struct (.object [.typed (some "left") (.named "Tree"),
      .typed (some "right") (.named "Tree")]))]))]

/-- Their schema. -/
def treeSchema : Schema := (compile tree {}).toOption.get (by decide +kernel)

theorem reached_tree : Reached tree {} treeSchema := .compile (eq_ok_get _)

/-- The type of a layout's tag. -/
def tag? : Layout → Option TypeId
  | .enum e => some e.tag
  | _ => none

/-- A list of numbers and an array with gaps. -/
def batch : List (String × Definition) :=
  [("Batch", .struct (.object [.typed (some "items") (.generic "Array" [[.type (.named "u16")]]),
    .typed (some "slots") (.array (TypeRef.named "u8").orNull [.number (.ofNat 3)])]))]

/-- Their schema. -/
def batchSchema : Schema := (compile batch {}).toOption.get (by decide +kernel)

theorem reached_batch : Reached batch {} batchSchema := .compile (eq_ok_get _)

namespace Reached

variable {definitions : List (String × Definition)} {options : Options} {schema : Schema}

/-- **A value depends on the bytes that it takes.** No more bytes are taken than there are, and with
any others behind them, or none, they give the same value. -/
theorem decodePrefix_take (h : Reached definitions options schema) {id : TypeId} {codec : TypeCodec}
    (hcodec : schema.codec? id = some codec) {bytes : List UInt8} {value : Json} {used : ℕ}
    (hrun : codec.decodePrefix bytes = .ok (value, used)) :
    used ≤ bytes.length ∧
      ∀ suffix, codec.decodePrefix (bytes.take used ++ suffix) = .ok (value, used) := by
  obtain ⟨type, -, rfl⟩ := codec?_eq hcodec
  unfold TypeCodec.decodePrefix at hrun
  split at hrun
  · next found after hfound =>
    cases hrun
    obtain ⟨taken, hrest, hyields⟩ := h.grounded.takes_decode id _ _ after hfound
    -- the offset counts the bytes taken
    have hsame := hyields after.rest 0
    change bytes = taken ++ after.rest at hrest
    rw [← hrest] at hsame
    have hoffset : after.offset = taken.length := by
      have hend := (EStateM.Result.ok.inj (hfound.symm.trans hsame)).2
      rw [hend, Nat.zero_add]
    rw [hoffset, hrest, List.take_left' rfl, List.length_append]
    refine ⟨Nat.le_add_right _ _, fun suffix => ?_⟩
    simp only [TypeCodec.decodePrefix, Cursor.ofBytes, hyields suffix 0, Nat.zero_add]
  · cases hrun

theorem chain_decodePrefix_take : ∃ schema codec value, Reached chain {} schema ∧
    schema.codec? ⟨29⟩ = some codec ∧ codec.decodePrefix [1, 7, 0, 8, 99] = .ok (value, 4) ∧
    codec.decodePrefix [1, 7, 0, 8] = .ok (value, 4) := by
  have hused : ((chainSchema.codec? ⟨29⟩).map fun codec =>
      (codec.decodePrefix [1, 7, 0, 8, 99]).toOption.map (·.2)) = some (some 4) := by decide +kernel
  obtain ⟨codec, hcodec, hused⟩ := Option.map_eq_some_iff.1 hused
  cases hrun : codec.decodePrefix [1, 7, 0, 8, 99] with
  | error stop => simp [hrun, Except.toOption] at hused
  | ok found =>
    obtain ⟨value, used⟩ := found
    rw [hrun] at hused
    obtain rfl : used = 4 := Option.some.inj hused
    exact ⟨chainSchema, codec, value, reached_chain, hcodec, hrun,
      (decodePrefix_take reached_chain hcodec hrun).2 []⟩

/-- **Comparing counts with the input that is left turns down nothing that would be read**, of any
type, from any place of any input. -/
theorem decode_iff_freely (h : Reached definitions options schema) (id : TypeId) (c after : Cursor)
    (value : Json) :
    schema.session.arena.decode id c = .ok value after ↔
      ∃ levels, schema.session.arena.decodeFreelyWithin levels id c = .ok value after :=
  h.grounded.decode_ok_iff id c after value

theorem batch_decode_freely : ∃ schema value after, Reached batch {} schema ∧
    schema.session.arena.decode ⟨29⟩ (.ofBytes [2, 1, 0, 2, 0, 5, 7, 9, 99]) = .ok value after ∧
    after.rest = [99] ∧
    ∃ levels, schema.session.arena.decodeFreelyWithin levels ⟨29⟩
      (.ofBytes [2, 1, 0, 2, 0, 5, 7, 9, 99]) = .ok value after := by
  have hrest : (ending (batchSchema.session.arena.decode ⟨29⟩)
      (.ofBytes [2, 1, 0, 2, 0, 5, 7, 9, 99])).toOption.map (·.2.rest) =
        some [99] := by decide +kernel
  obtain ⟨⟨value, after⟩, hending, hrest⟩ := Option.map_eq_some_iff.1 hrest
  have hrun := ok_of_ending (ok_of_toOption hending)
  exact ⟨batchSchema, value, after, reached_batch, hrun, hrest,
    (decode_iff_freely reached_batch _ _ _ _).1 hrun⟩

/-- **Decoding ends**, if no enum is entered again before a byte has been taken. -/
theorem decode_ends (h : Reached definitions options schema)
    (henum : ∀ id type e, schema.session.arena.get? id = some type → type.layout = .enum e →
      ¬Relation.TransGen schema.session.arena.Enters id id)
    {id : TypeId} {codec : TypeCodec} (hcodec : schema.codec? id = some codec)
    (bytes : List UInt8) :
    codec.decodePrefix bytes ≠ .error .outOfFuel ∧ codec.decode bytes ≠ .error .outOfFuel := by
  obtain ⟨type, htype, rfl⟩ := codec?_eq hcodec
  have hends := h.grounded.ends_decode (h.complete.acyclic.not_enters_self henum)
    (Arena.lt_size_of_get? _ htype) (.ofBytes bytes)
  have hfront : TypeCodec.decodePrefix ⟨schema.session.arena, id, type⟩ bytes ≠
      .error .outOfFuel := by
    unfold TypeCodec.decodePrefix
    split
    · exact fun heq => nomatch heq
    · next stop after hrun =>
      rintro heq
      obtain rfl := Except.error.inj heq
      exact hends.of_error hrun rfl
  refine ⟨hfront, ?_⟩
  unfold TypeCodec.decode
  cases hfound : TypeCodec.decodePrefix ⟨schema.session.arena, id, type⟩ bytes with
  | error stop =>
    rw [hfound] at hfront
    exact fun heq => hfront (congrArg Except.error (Except.error.inj heq))
  | ok found =>
    -- only the test for bytes left over remains
    change (if found.2 = bytes.length then Except.ok found.1 else _) ≠ _
    split <;> exact fun heq => nomatch heq

theorem tree_decode_ends : ∃ schema codec, Reached tree {} schema ∧
    (∀ id type e, schema.session.arena.get? id = some type → type.layout = .enum e →
      ¬Relation.TransGen schema.session.arena.Enters id id) ∧
    schema.codec? ⟨29⟩ = some codec ∧ ∀ bytes, codec.decodePrefix bytes ≠ .error .outOfFuel := by
  -- the trees are the only enum, and decoding one enters the tag's type, from which nothing is
  -- entered
  have hslots : (List.range treeSchema.session.arena.size).filter (fun slot =>
        ((treeSchema.session.arena.get? ⟨slot⟩).bind fun type => tag? type.layout).isSome) = [29] ∧
      [29, 0].map (fun slot => (treeSchema.session.arena.get? ⟨slot⟩).map fun type =>
        type.layout.entered treeSchema.session.arena.minSize) =
          [some [⟨0⟩], some []] := by decide +kernel
  obtain ⟨henums, hentered⟩ := hslots
  simp only [List.map_cons, List.map_nil, List.cons.injEq, and_true] at hentered
  have henters : ∀ {part id : TypeId} {parts : List TypeId}, (treeSchema.session.arena.get? id).map
      (fun type => type.layout.entered treeSchema.session.arena.minSize) = some parts →
      treeSchema.session.arena.Enters part id → part ∈ parts := by
    rintro part id parts hparts ⟨type, hid, hpart⟩
    rw [hid] at hparts
    exact Option.some.inj hparts ▸ hpart
  have hends : ∀ id type e, treeSchema.session.arena.get? id = some type → type.layout = .enum e →
      ¬Relation.TransGen treeSchema.session.arena.Enters id id := by
    intro id type e hid hl hself
    have hmem : id.index ∈ [29] := by
      rw [← henums, List.mem_filter, List.mem_range, hid, Option.bind_some, hl]
      exact ⟨Arena.lt_size_of_get? _ hid, rfl⟩
    obtain rfl : id = ⟨29⟩ := congrArg TypeId.mk (List.mem_singleton.1 hmem)
    obtain ⟨part, hpath, hlast⟩ := Relation.TransGen.tail'_iff.1 hself
    obtain rfl := List.mem_singleton.1 (henters hentered.1 hlast)
    rcases Relation.ReflTransGen.cases_tail hpath with heq | ⟨before, -, hbefore⟩
    · cases heq
    · cases henters hentered.2 hbefore
  obtain ⟨type, htype⟩ := Option.map_eq_some_iff.1 hentered.1
  have hcodec : treeSchema.codec? ⟨29⟩ = some ⟨treeSchema.session.arena, ⟨29⟩, type⟩ := by
    rw [codec?, htype.1]
    rfl
  exact ⟨treeSchema, _, reached_tree, hends, hcodec,
    fun bytes => (decode_ends reached_tree hends hcodec bytes).1⟩

end Reached

/-- The schema of the enum that is its own tag. -/
def ownTagSchema : Schema := (compile ownTag {}).toOption.get (by decide +kernel)

/-- **An enum that is its own tag is accepted, and decoding it never ends**, whatever the input
is. -/
theorem ownTag_endless : ∃ schema codec, compile ownTag {} = .ok schema ∧
    schema.get? "E" = some codec ∧
    ∀ levels c, codec.arena.decodeWithin levels codec.id c = .error .outOfFuel c := by
  have hcodec : ((ownTagSchema.get? "E").map fun codec =>
      (codec.id, (codec.arena.get? codec.id).map fun type => tag? type.layout)) =
      some (⟨29⟩, some (some ⟨29⟩)) := by decide +kernel
  obtain ⟨codec, hget, hcodec⟩ := Option.map_eq_some_iff.1 hcodec
  obtain ⟨hid, hslot⟩ := Prod.mk.inj hcodec
  obtain ⟨type, htype, htag⟩ := Option.map_eq_some_iff.1 hslot
  refine ⟨ownTagSchema, codec, eq_ok_get _, hget, ?_⟩
  unfold tag? at htag
  split at htag
  · next e hl => exact Arena.decodeWithin_ownTag htype hl ((Option.some.inj htag).trans hid.symm)
  · cases htag

end Wireform.Schema
