import Wireform.Proofs.Meaning.Acceptance

/-!
# The order of the definitions

Compiled in two orders, the same definitions give two sessions that follow them. So each name of the
top level stands for the same node in both, its slots are counterparts, and their codecs give the
same results. If one order is accepted, another one is refused only for a reason that depends on
what is being compiled when a type is asked for.

* `alike_of_paired`: the codecs of counterparts.
* `Schema.alike_of_perm`: another order is accepted with the same codecs, unless it is
  refused for such a reason.
* `Schema.order_decides`: two orders of which only one is accepted, for each reason.
-/

namespace Wireform

/-- Two codecs that give the same results. -/
structure TypeCodec.Alike (codec other : TypeCodec) : Prop where
  encodeInto : ∀ value buffer, ending (other.encodeInto value) buffer =
    ending (codec.encodeInto value) buffer
  encode : ∀ value, other.encode value = codec.encode value
  decodePrefix : ∀ bytes, other.decodePrefix bytes = codec.decodePrefix bytes
  decode : ∀ bytes, other.decode bytes = codec.decode bytes

namespace Meaning

open Session Schema

variable {w : Source} {s t : Session} {g g' : Legend} {id id' : TypeId} {name : String}
  {definition : Definition}

/-- **The codecs of counterparts** give the same results. -/
theorem alike_of_paired (h : w.Complies s g) (h' : w.Complies t g') (hs : s.Informed)
    (ht : t.Informed) (ha : s.arena.Grounded) (hb : t.arena.Grounded) (hp : Paired s g t g' id id')
    (type type' : CompiledType) :
    TypeCodec.Alike ⟨s.arena, id, type⟩ ⟨t.arena, id', type'⟩ := by
  have hthere := matches_of_informed h h' hs ht
  have hback := matches_of_informed h' h ht hs
  have hencode : ∀ value buffer, ending (TypeCodec.encodeInto ⟨t.arena, id', type'⟩ value) buffer =
      ending (TypeCodec.encodeInto ⟨s.arena, id, type⟩ value) buffer := by
    intro value
    have hto := hthere.repeats_encode ha hb ⟨id', hp⟩ value
    have hfrom := hback.repeats_encode hb ha ⟨id, hp.symm⟩ value
    rw [hp.counterpart_eq h'.labels] at hto
    rw [hp.symm.counterpart_eq h.labels] at hfrom
    exact hfrom.ending_eq hto
  have hdecode : ∀ bytes, TypeCodec.decodePrefix ⟨t.arena, id', type'⟩ bytes =
      TypeCodec.decodePrefix ⟨s.arena, id, type⟩ bytes := by
    intro bytes
    have hto := hthere.rereads_decode ha hb ⟨id', hp⟩
    have hfrom := hback.rereads_decode hb ha ⟨id, hp.symm⟩
    rw [hp.counterpart_eq h'.labels] at hto
    rw [hp.symm.counterpart_eq h.labels] at hfrom
    rw [TypeCodec.decodePrefix_eq, TypeCodec.decodePrefix_eq, hfrom.ending_eq hto trivial]
  exact ⟨hencode, TypeCodec.encode_congr hencode, hdecode, TypeCodec.decode_congr hdecode⟩

/-- A block can be read if its references lead to nodes that are admitted. -/
theorem Source.fed_parts {node : Node} {block : Block} (parts : List Node)
    (h : ∀ o, List.Forall₂
      (fun r part => w.resolveStep o node (node.inside block) r block.bindings = w.ask part)
      (block.body.references w.options) parts)
        (hadmits : ∀ part ∈ parts, part.block?.isSome → w.admits part) :
    Fed (fun levels => w.parts (w.oracle levels) node block) 0 := by
  refine ⟨1, fun levels hlevels => ?_⟩
  obtain ⟨levels, rfl⟩ := Nat.exists_eq_add_of_le' hlevels
  have hread : w.parts (w.oracle (levels + 1)) node block = pure parts := by
    have hall := h (w.oracle levels)
    unfold Source.parts
    generalize block.body.references w.options = references at hall
    clear h
    induction hall with
    | nil => rfl
    | @cons r part references parts hpart _ ih =>
      rw [List.mapM_cons, ih fun other ho => hadmits other (List.mem_cons_of_mem _ ho)]
      change (w.resolveStep _ _ _ _ _ >>= _) = _
      rw [hpart, Source.ask, if_pos (hadmits part List.mem_cons_self)]
      rfl
  rintro ⟨_, hrun⟩
  dsimp only at hrun
  rw [hread] at hrun
  cases hrun

end Meaning

namespace Schema

open Session Meaning

variable {definitions permuted : List (String × Definition)} {options : Options}
  {schema schema' : Schema}

/-- The codecs of a name in two orders that are both compiled. -/
theorem exists_alike (hperm : definitions.Perm permuted)
    (hplain : ∀ name ∈ Assoc.keys definitions, '<' ∉ name.toList)
    (hclear : ∃ admits, Source.Clear ⟨definitions, options, admits⟩)
    (h : compile definitions options = .ok schema) (h' : compile permuted options = .ok schema')
    (hinformed : schema.session.Informed) (hinformed' : schema'.session.Informed) {name : String}
    {definition : Definition} (hmem : (name, definition) ∈ definitions)
    (hkind : ¬definition.IsTemplate) :
    ∃ codec codec', schema.get? name = some codec ∧ schema'.get? name = some codec' ∧
      codec.Alike codec' := by
  obtain ⟨admits, hclear⟩ := hclear
  have hnodup : (Assoc.keys definitions).Nodup := by
    obtain ⟨s, hdefined, -⟩ := exists_of_compile h
    exact (declared_of_defineAll hdefined).2.1
  have hsame := Assoc.get?_of_perm hperm hnodup
  have hs := complete_compile h
  have hs' := complete_compile h'
  obtain ⟨g, hfollows⟩ := follows_compile hclear (fun _ => rfl) hplain h
  obtain ⟨g', hfollows'⟩ := follows_compile hclear (fun name => (hsame name).symm)
    (fun name hname => hplain name ((hperm.map Prod.fst).mem_iff.2 hname)) h'
  -- the name stands for one node, whose slots in the two sessions are counterparts
  have hdefined := Assoc.get?_of_mem hnodup hmem
  have hname := hplain name (Assoc.mem_keys hmem)
  obtain ⟨id, type, hid, htype, hnode⟩ := exists_of_defined hfollows hs hname hdefined hkind
  obtain ⟨id', type', hid', htype', hnode'⟩ := exists_of_defined hfollows' hs' hname hdefined hkind
  have hpaired : Paired schema.session g schema'.session g' id id' := by
    refine ⟨Arena.lt_size_of_get? _ htype, Arena.lt_size_of_get? _ htype', ?_⟩
    exact (Standing.type.inj (Option.some.inj (hnode.symm.trans hnode'))).symm
  have halike :=
    alike_of_paired ⟨hfollows, fun _ => hs.get?⟩ ⟨hfollows', fun _ => hs'.get?⟩ hinformed hinformed'
    (Reached.compile h).grounded (Reached.compile h').grounded hpaired type type'
  refine ⟨_, _, ?_, ?_, halike⟩
  · simp [get?, hid, codec?, htype]
  · simp [get?, hid', codec?, htype']

/-- **The order of the definitions plays no part.** If an order of the definitions is compiled, any
other order is compiled too, unless it is stopped for a reason that depends on what is being
compiled. Then a name of a type has codecs in the two schemas that give the same results. -/
theorem alike_of_perm (hperm : definitions.Perm permuted)
    (hplain : ∀ name ∈ Assoc.keys definitions, '<' ∉ name.toList)
    (hclear : ∃ admits, Source.Clear ⟨definitions, options, admits⟩)
    (h : compile definitions options = .ok schema) :
    (∃ stop, compile permuted options = .error stop ∧ Excused stop) ∨
    ∃ schema', compile permuted options = .ok schema' ∧
      (schema.session.Informed → schema'.session.Informed →
        ∀ name definition, (name, definition) ∈ definitions → ¬definition.IsTemplate →
          ∃ codec codec', schema.get? name = some codec ∧ schema'.get? name = some codec' ∧
            codec.Alike codec') := by
  cases h' : compile permuted options with
  | error stop =>
    obtain ⟨admits, hclear⟩ := hclear
    exact Or.inl ⟨stop, rfl, excused_of_perm hperm hplain hclear ⟨rfl, rfl⟩ h h'⟩
  | ok schema' =>
    refine Or.inr ⟨schema', rfl, fun hinformed hinformed' name definition hmem hkind => ?_⟩
    exact exists_alike hperm hplain hclear h h' hinformed hinformed' hmem hkind

/-- A figure is a dot or a line. -/
def figure : Definition :=
  .enum ⟨.object, none, none, [⟨.ofUInt64 0, "Dot"⟩, ⟨.ofUInt64 1, "Line"⟩], []⟩

def dot : Definition := .struct (.object [.typed (some "x") (.named "u8")])

def pair : Definition :=
  .struct (.tuple [.typed none (.parameter "T"), .typed none (.parameter "T")])

/-- A line between two dots, with other figures on it. -/
def line : Definition :=
  .struct (.object [.typed (some "ends") (.generic "Pair" [[.type (.named "Dot")]]),
    .typed (some "figures") (.generic "Array" [[.type (.named "Figure")]])])

def figures : List (String × Definition) :=
  [("Figure", figure), ("Pair", .template ["T"] pair), ("Dot", dot), ("Line", line)]

/-- Their schema, and the one of the definitions turned round. -/
def figuresSchema : Schema := (compile figures {}).toOption.get (by decide +kernel)

def figuresTurned : Schema := (compile figures.reverse {}).toOption.get (by decide +kernel)

/-- The blocks to which the figures lead. -/
def figureBlocks : List Node :=
  [.keyed .root "Figure" (.definition figure) [], .keyed .root "Dot" (.definition dot) [],
    .keyed .root "Line" (.definition line) [],
    .keyed .root "Pair<Dot>" (.definition pair) [("T", .type (.named "Dot"))],
    .keyed .root "Array<Figure>" (.builtin .array [.type (.named "Figure")]) []]

theorem figures_clear : Source.Clear ⟨figures, {}, (· ∈ figureBlocks)⟩ where
  defined := by
    intro name definition hdefined htype
    have hmem := Assoc.mem_of_get? hdefined
    simp only [figures, List.mem_cons, List.not_mem_nil, or_false, Prod.mk.injEq] at hmem
    obtain ⟨rfl, rfl⟩ | ⟨rfl, rfl⟩ | ⟨rfl, rfl⟩ | ⟨rfl, rfl⟩ := hmem
    · exact .head _
    · exact absurd trivial htype
    · exact .tail _ (.head _)
    · exact .tail _ (.tail _ (.head _))
  closed := by
    intro node block hadmits hblock
    simp only [figureBlocks, List.mem_cons, List.not_mem_nil, or_false] at hadmits
    rcases hadmits with rfl | rfl | rfl | rfl | rfl <;> obtain rfl := Option.some.inj hblock
    -- the enum: its tag and its two variants
    · refine Source.fed_parts [.standard ⟨0⟩, .keyed .root "Dot" (.definition dot) [],
        .keyed .root "Line" (.definition line) []]
        (fun _ => .cons rfl (.cons rfl (.cons rfl .nil))) ?_
      simp [figureBlocks, Node.block?]
    · refine Source.fed_parts [.standard ⟨0⟩] (fun _ => .cons rfl .nil) ?_
      simp [Node.block?]
    · refine Source.fed_parts
        [.keyed .root "Pair<Dot>" (.definition pair) [("T", .type (.named "Dot"))],
        .keyed .root "Array<Figure>" (.builtin .array [.type (.named "Figure")]) []]
        (fun _ => .cons rfl (.cons rfl .nil)) ?_
      simp [figureBlocks]
    -- the parameter stands for dots both times
    · refine Source.fed_parts [.keyed .root "Dot" (.definition dot) [],
        .keyed .root "Dot" (.definition dot) []]
        (fun _ => .cons rfl (.cons rfl .nil)) ?_
      simp [figureBlocks]
    · refine Source.fed_parts [.keyed .root "Figure" (.definition figure) []]
        (fun _ => .cons rfl .nil) ?_
      simp [figureBlocks]
  apart := by
    intro home key body bindings body' bindings' h h'
    simp only [figureBlocks, List.mem_cons, List.not_mem_nil, or_false, Node.keyed.injEq] at h h'
    grind

theorem figures_alike : ∃ schema schema', compile figures {} = .ok schema ∧
    compile figures.reverse {} = .ok schema' ∧ schema.session.Informed ∧ schema'.session.Informed ∧
    (schema'.get? "Line").map (·.id) ≠ (schema.get? "Line").map (·.id) ∧
    ∃ codec codec', schema.get? "Line" = some codec ∧ schema'.get? "Line" = some codec' ∧
      codec.Alike codec' := by
  have hschema : compile figures {} = .ok figuresSchema := eq_ok_get _
  have hschema' : compile figures.reverse {} = .ok figuresTurned := eq_ok_get _
  have hruns : figuresSchema.session.Informed ∧ figuresTurned.session.Informed ∧
      (figuresTurned.get? "Line").map (·.id) ≠ (figuresSchema.get? "Line").map (·.id) :=
      by decide +kernel
  obtain ⟨hs, hs', hne⟩ := hruns
  refine ⟨figuresSchema, figuresTurned, hschema, hschema', hs, hs', hne, ?_⟩
  rcases alike_of_perm figures.reverse_perm.symm (by decide) ⟨_, figures_clear⟩ hschema with
    ⟨stop, hstop, -⟩ | ⟨schema', hturned, halike⟩
  · cases hstop.symm.trans hschema'
  · have hsame : schema' = figuresTurned := Except.ok.inj (hturned.symm.trans hschema')
    rw [hsame] at halike
    exact halike hs hs' "Line" line (by simp [figures]) id

/-- A struct in another one. -/
def nested : List (String × Definition) :=
  [("Outer", .struct (.object [.typed (some "inner") (.named "Inner")])), ("Inner", dot)]

/-- A type whose length is that of another one, in which it is kept in as many bytes as are
given. -/
def measured : List (String × Definition) :=
  [("Buffer",
    .struct
    (.object
      [.typed (some "bytes") (.array (.named "u8") [.type (.named "Box"), .operator "sizeof"])])),
    ("Box", .struct (.object [.typed (some "buffer")
      (.generic "Padded" [[.type (.named "Buffer")], [.number (.ofNat 4)]])]))]

/-- A struct with a definition of its own, which it names by way of another name for itself. -/
def aliased : List (String × Definition) :=
  [("Outer",
    .struct ⟨.object, [.typed (some "x") (.ofKind (.path [⟨"Alias", none⟩, ⟨"Dot", none⟩]))],
      [("Dot", dot)]⟩),
    ("Alias", .synonym (.named "Outer"))]

/-- The type whose length was asked for and has no bound, if that is why nothing was compiled. -/
def unbounded? : Except (Stop CompileError) Schema → Option TypeRef
  | .error (.failure (.unboundedSizeof type)) => some type
  | _ => none

theorem eq_of_unbounded? {result : Except (Stop CompileError) Schema} {type : TypeRef}
    (h : unbounded? result = some type) : result = .error (.failure (.unboundedSizeof type)) := by
  unfold unbounded? at h
  split at h
  · rw [Option.some.inj h]
  · cases h

/-- **Whether an order is accepted** depends on what is being compiled when a type is asked for: so
many blocks may be in compilation at once, a type that is being compiled has no bound, and what a
name stands for that is being compiled is not known yet. -/
theorem order_decides :
    ((∃ schema, compile nested.reverse { maxDepth := 1 } = .ok schema) ∧
      compile nested { maxDepth := 1 } = .error (.failure (.recursionLimit "Inner" 1))) ∧
    ((∃ schema, compile measured {} = .ok schema) ∧
      ∃ type, compile measured.reverse {} = .error (.failure (.unboundedSizeof type)) ∧
        type.describe = "Box") ∧
    (∃ schema, compile aliased {} = .ok schema) ∧
      compile aliased.reverse {} = .error (.failure (.undefinedType "Alias.Dot")) := by
  have hrefuses : (unbounded? (compile measured.reverse {})).any
      (fun type => type.describe = "Box") = true := by
    decide +kernel
  obtain ⟨type, htype, hname⟩ := (Option.any_eq_true _ _).1 hrefuses
  exact ⟨⟨exists_ok_of_isSome (by decide +kernel), rfl⟩,
    ⟨exists_ok_of_isSome (by decide +kernel), type, eq_of_unbounded? htype,
      of_decide_eq_true hname⟩,
    exists_ok_of_isSome (by decide +kernel), rfl⟩

end Schema

end Wireform
