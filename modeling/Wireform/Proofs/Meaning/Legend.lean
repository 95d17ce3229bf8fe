import Wireform.Proofs.Meaning.Reading
import Wireform.Proofs.Session.Layouts

/-!
# What the numbers of a session stand for

A legend gives the node of each slot and the place of each namespace. A session follows the
definitions under a legend (`Follows`) if its namespaces know what the definitions say, if its types
are those of their nodes, as far as they are known, and if no node stands behind two slots. A bound
that the session has not found may be one that reading finds.

* `Lays`: the layout of a block whose parts are in given slots.
* `Source.Describes`: a type is that of a node.
* `Source.Follows`: what holds of a session at every moment, whatever is compiled first.
-/

namespace Wireform

/-! ### Bounds that are missing as yet -/

/-- A bound that is missing as yet, or the same one. -/
def Size.Sketches (a b : Size) : Prop := a = .unbounded ∨ a = b

namespace Size

variable {a a' b b' : Size}

theorem Sketches.refl (a : Size) : a.Sketches a := Or.inr rfl

theorem Sketches.trans {c : Size} (hab : a.Sketches b) (hbc : b.Sketches c) : a.Sketches c := by
  rcases hab with rfl | rfl
  · exact Or.inl rfl
  · exact hbc

theorem Sketches.of_bounded {bytes : ℕ} (h : (bounded bytes).Sketches b) : b = bounded bytes :=
  (h.resolve_left fun heq => nomatch heq).symm

theorem add_unbounded (a : Size) : a + unbounded = unbounded := by cases a <;> rfl

theorem max_unbounded (a : Size) : a.max unbounded = unbounded := by cases a <;> rfl

theorem Sketches.add (h : a.Sketches b) (h' : a'.Sketches b') : (a + a').Sketches (b + b') := by
  rcases h with rfl | rfl
  · exact Or.inl rfl
  rcases h' with rfl | rfl
  · exact Or.inl (add_unbounded a)
  · exact Or.inr rfl

theorem Sketches.max (h : a.Sketches b) (h' : a'.Sketches b') : (a.max a').Sketches (b.max b') := by
  rcases h with rfl | rfl
  · exact Or.inl rfl
  rcases h' with rfl | rfl
  · exact Or.inl (max_unbounded a)
  · exact Or.inr rfl

/-- No copies of anything have a bound. -/
theorem Sketches.times (h : a.Sketches b) (n : ℕ) : (a.times n).Sketches (b.times n) := by
  rcases h with rfl | rfl
  · cases n with
    | zero =>
      cases b with
      | bounded bytes =>
        refine Or.inr ?_
        rw [Size.times, Size.times, Nat.mul_zero]
        rfl
      | unbounded => exact Or.inr rfl
    | succ n => exact Or.inl rfl
  · exact Or.inr rfl

end Size

namespace Meaning

open Session

/-! ### What is read with enough levels -/

/-- With enough levels this is always read, and so many nodes without a text have then been made. -/
def Reads {α : Type} (x : ℕ → Reading α) (k : ℕ) (a : α) (k' : ℕ) : Prop :=
  ∃ enough, ∀ levels ≥ enough, x levels k = .ok a k'

/-- With enough levels nothing is met that is not admitted. -/
def Fed {α : Type} (x : ℕ → Reading α) (k : ℕ) : Prop :=
  ∃ enough, ∀ levels ≥ enough, ¬Starves k (x levels)

/-- With enough levels there is an answer. -/
def Answers {α : Type} (x : ℕ → Reading α) (k : ℕ) : Prop :=
  ∃ enough, ∀ levels ≥ enough, ∃ a k', x levels k = .ok a k'

section Reads

variable {α β : Type} {x : ℕ → Reading α} {f : ℕ → α → Reading β} {k k' k'' : ℕ} {a : α} {b : β}

theorem Reads.pure (a : α) (k : ℕ) : Reads (fun _ => Pure.pure a) k a k := ⟨0, fun _ _ => rfl⟩

theorem Reads.bind (hx : Reads x k a k') (hf : Reads (fun levels => f levels a) k' b k'') :
    Reads (fun levels => x levels >>= f levels) k b k'' := by
  obtain ⟨enough, hx⟩ := hx
  obtain ⟨more, hf⟩ := hf
  refine ⟨max enough more, fun levels hlevels => ?_⟩
  exact (bind_of_ok (hx levels ((le_max_left _ _).trans hlevels))).trans
    (hf levels ((le_max_right _ _).trans hlevels))

theorem Reads.unique {a' : α} (h : Reads x k a k') (h' : Reads x k a' k'') : a' = a := by
  obtain ⟨enough, h⟩ := h
  obtain ⟨more, h'⟩ := h'
  have hsame :=
    (h' (max enough more) (le_max_right _ _)).symm.trans (h (max enough more) (le_max_left _ _))
  exact (EStateM.Result.ok.inj hsame).1

theorem Reads.of_succ (h : Reads (fun levels => x (levels + 1)) k a k') : Reads x k a k' := by
  obtain ⟨enough, h⟩ := h
  refine ⟨enough + 1, fun levels hlevels => ?_⟩
  obtain ⟨levels, rfl⟩ := Nat.exists_eq_add_of_le' (Nat.le_trans (Nat.le_add_left 1 enough) hlevels)
  exact h levels (Nat.le_of_succ_le_succ hlevels)

theorem Reads.answers (h : Reads x k a k') : Answers x k := by
  obtain ⟨enough, h⟩ := h
  exact ⟨enough, fun levels hlevels => ⟨a, k', h levels hlevels⟩⟩

theorem not_answers {x : ℕ → Reading α} (h : ∀ levels, ∃ stop k', x levels k = .error stop k') :
    ¬Answers x k := by
  rintro ⟨enough, hanswers⟩
  obtain ⟨a, k', hok⟩ := hanswers enough le_rfl
  obtain ⟨stop, k'', herror⟩ := h enough
  rw [hok] at herror
  cases herror

theorem Answers.fed (h : Answers x k) : Fed x k := by
  obtain ⟨enough, h⟩ := h
  refine ⟨enough, fun levels hlevels ⟨_, hstarves⟩ => ?_⟩
  obtain ⟨a, k', hok⟩ := h levels hlevels
  rw [hok] at hstarves
  cases hstarves

theorem Answers.succ (h : Answers x k) : Answers (fun levels => x (levels + 1)) k := by
  obtain ⟨enough, h⟩ := h
  exact ⟨enough, fun levels hlevels => h (levels + 1) (Nat.le_succ_of_le hlevels)⟩

theorem Answers.left (h : Answers (fun levels => x levels >>= f levels) k) : Answers x k := by
  obtain ⟨enough, h⟩ := h
  refine ⟨enough, fun levels hlevels => ?_⟩
  obtain ⟨b, k', hok⟩ := h levels hlevels
  obtain ⟨a, mid, hfirst, -⟩ := exists_of_bind_ok hok
  exact ⟨a, mid, hfirst⟩

theorem Answers.right (h : Answers (fun levels => x levels >>= f levels) k) (hx : Reads x k a k') :
    Answers (fun levels => f levels a) k' := by
  obtain ⟨enough, h⟩ := h
  obtain ⟨more, hx⟩ := hx
  refine ⟨max enough more, fun levels hlevels => ?_⟩
  obtain ⟨b, k'', hok⟩ := h levels ((le_max_left _ _).trans hlevels)
  exact ⟨b, k'', (bind_of_ok (hx levels ((le_max_right _ _).trans hlevels))).symm.trans hok⟩

theorem Fed.succ (h : Fed x k) : Fed (fun levels => x (levels + 1)) k := by
  obtain ⟨enough, h⟩ := h
  exact ⟨enough, fun levels hlevels => h (levels + 1) (Nat.le_succ_of_le hlevels)⟩

theorem Fed.left (h : Fed (fun levels => x levels >>= f levels) k) : Fed x k := by
  obtain ⟨enough, h⟩ := h
  exact ⟨enough, fun levels hlevels hstarves => h levels hlevels (hstarves.bind _)⟩

theorem Fed.right (h : Fed (fun levels => x levels >>= f levels) k) (hx : Reads x k a k') :
    Fed (fun levels => f levels a) k' := by
  obtain ⟨enough, h⟩ := h
  obtain ⟨more, hx⟩ := hx
  refine ⟨max enough more, fun levels hlevels hstarves => ?_⟩
  exact h levels ((le_max_left _ _).trans hlevels)
    (hstarves.bind_of_ok (hx levels ((le_max_right _ _).trans hlevels)))

end Reads

/-- With enough levels a bound is the given one, if that is not missing. -/
def Source.Sketched (w : Source) (size : Size) (bound : Oracle → Size) : Prop :=
  ∃ enough, ∀ levels ≥ enough, size.Sketches (bound (w.oracle levels))

/-- With enough levels the bound of a node is the given one, if that is not missing. -/
def Source.Bounds (w : Source) (node : Node) (size : Size) : Prop :=
  w.Sketched size fun o => o.size node

namespace Source.Sketched

variable {w : Source} {a a' : Size} {b b' : Oracle → Size}

theorem refl (size : Size) : w.Sketched size fun _ => size := ⟨0, fun _ _ => .refl size⟩

theorem unbounded (bound : Oracle → Size) : w.Sketched .unbounded bound :=
  ⟨0, fun _ _ => Or.inl rfl⟩

/-- Two bounds are combined as the bounds are for which they stand. -/
theorem map₂ {f : Size → Size → Size}
    (hf : ∀ {a b a' b' : Size}, a.Sketches b → a'.Sketches b' → (f a a').Sketches (f b b'))
    (h : w.Sketched a b) (h' : w.Sketched a' b') : w.Sketched (f a a') fun o => f (b o) (b' o) := by
  obtain ⟨enough, h⟩ := h
  obtain ⟨more, h'⟩ := h'
  refine ⟨Nat.max enough more, fun levels hlevels => hf (h levels ?_) (h' levels ?_)⟩
  · exact (Nat.le_max_left _ _).trans hlevels
  · exact (Nat.le_max_right _ _).trans hlevels

theorem add (h : w.Sketched a b) (h' : w.Sketched a' b') :
    w.Sketched (a + a') fun o => b o + b' o :=
  map₂ Size.Sketches.add h h'

theorem max (h : w.Sketched a b) (h' : w.Sketched a' b') :
    w.Sketched (a.max a') fun o => (b o).max (b' o) :=
  map₂ Size.Sketches.max h h'

theorem times (h : w.Sketched a b) (n : ℕ) : w.Sketched (a.times n) fun o => (b o).times n := by
  obtain ⟨enough, h⟩ := h
  exact ⟨enough, fun levels hlevels => (h levels hlevels).times n⟩

/-- A bound of which two bounds are known. -/
theorem trans_left {c : ℕ} (h : w.Sketched a b) (h' : w.Sketched (.bounded c) b) :
    a.Sketches (.bounded c) := by
  obtain ⟨enough, h⟩ := h
  obtain ⟨more, h'⟩ := h'
  have hleft := h (Nat.max enough more) (Nat.le_max_left _ _)
  rwa [(h' (Nat.max enough more) (Nat.le_max_right _ _)).of_bounded] at hleft

theorem trans {c : Size} (h : a.Sketches c) (h' : w.Sketched c b) : w.Sketched a b := by
  obtain ⟨enough, h'⟩ := h'
  exact ⟨enough, fun levels hlevels => h.trans (h' levels hlevels)⟩

end Source.Sketched

/-- **Texts tell blocks apart.** The blocks that are admitted are closed under reading, the
top-level types are among them, and no two of them have one text in one namespace. -/
structure Source.Clear (w : Source) : Prop where
  defined : ∀ name definition, w.definitions.get? name = some definition → ¬definition.IsTemplate →
    w.admits (.keyed .root name (BlockBody.definition definition).folded [])
  closed : ∀ node block, w.admits node → node.block? = some block →
    Fed (fun levels => w.parts (w.oracle levels) node block) 0
  apart : ∀ home key body bindings body' bindings', w.admits (.keyed home key body bindings) →
    w.admits (.keyed home key body' bindings') → body = body' ∧ bindings = bindings'

/-! ### Layouts -/

/-- What the slots and namespaces of a session stand for. -/
structure Legend where
  node : TypeId → Node
  place : ScopeId → Node
  /-- How many nodes without a text a block has made, if it has begun. -/
  made : Node → Option ℕ

/-- The blocks that stand in a session are among those that are admitted. -/
def Covers (s : Session) (g : Legend) (admits : Node → Prop) : Prop :=
  ∀ id : TypeId, id.index < s.arena.size → (g.node id).block?.isSome → admits (g.node id)

/-- The same definitions, of which other blocks may be read. -/
def Source.admitting (w : Source) (admits : Node → Prop) : Source := { w with admits }

theorem Source.standing?_admitting (w : Source) (admits : Node → Prop) :
    (w.admitting admits).standing? = w.standing? := rfl

theorem Source.home?_admitting (w : Source) (admits : Node → Prop) :
    (w.admitting admits).home? = w.home? := rfl

/-- This holds whatever is admitted, as long as the blocks that stand in a session are. -/
def Source.Under (w : Source) (s : Session) (g : Legend) (P : Source → Prop) : Prop :=
  ∀ admits, Covers s g admits → P (w.admitting admits)

section Under

variable {w : Source} {s : Session} {g : Legend} {P Q R : Source → Prop}

theorem Source.Under.map (h : w.Under s g P) (himp : ∀ w, P w → Q w) : w.Under s g Q :=
  fun admits hcovers => himp _ (h admits hcovers)

theorem Source.Under.map₂ (h : w.Under s g P) (h' : w.Under s g Q) (himp : ∀ w, P w → Q w → R w) :
    w.Under s g R :=
  fun admits hcovers => himp _ (h admits hcovers) (h' admits hcovers)

end Under

/-- Such a node without a text has been made by a block. -/
def Legend.Counts (g : Legend) (owner : Node) (position : ℕ) : Prop :=
  ∃ made, g.made owner = some made ∧ position < made

/-- A slot stands for a node from now on. -/
def Legend.put (g : Legend) (id : TypeId) (node : Node) : Legend :=
  { g with node := Function.update g.node id node }

@[simp]
theorem Legend.put_self (g : Legend) (id : TypeId) (node : Node) :
    (g.put id node).node id = node := by
  simp only [Legend.put, Function.update_self]

/-- What stood for a node stands for it still. -/
theorem Legend.put_of_lt (g : Legend) {id : TypeId} {slots : ℕ}
    (hid : id.index < slots) (node : Node) :
    (g.put ⟨slots⟩ node).node id = g.node id := by
  have hne : id ≠ ⟨slots⟩ := fun heq => Nat.ne_of_lt hid (congrArg TypeId.index heq)
  simp only [Legend.put, Function.update_of_ne hne]

open Classical in
/-- One more node without a text has been made by a block. -/
noncomputable def Legend.count (g : Legend) (owner : Node) : Legend :=
  { g with made := Function.update g.made owner ((g.made owner).map (· + 1)) }

open Classical in
/-- A block begins in the next slot, and its namespace is the next one. -/
noncomputable def Legend.begin (g : Legend) (s : Session) (node : Node) : Legend where
  node := Function.update g.node ⟨s.arena.size⟩ node
  place := Function.update g.place ⟨s.scopes.size⟩ node
  made := Function.update g.made node (some 0)

section Legend

variable (g : Legend) (node other : Node)

@[simp]
theorem Legend.count_node : (g.count node).node = g.node := rfl

@[simp]
theorem Legend.count_place : (g.count node).place = g.place := rfl

theorem Legend.count_made {k : ℕ} (h : g.made node = some k) :
    (g.count node).made node = some (k + 1) := by
  simp only [Legend.count, Function.update_self, h, Option.map_some]

open Classical in
theorem Legend.count_of_ne (h : other ≠ node) : (g.count node).made other = g.made other :=
  Function.update_of_ne h _ _

@[simp]
theorem Legend.begin_node (s : Session) : (g.begin s node).node ⟨s.arena.size⟩ = node := by
  simp only [Legend.begin, Function.update_self]

@[simp]
theorem Legend.begin_place (s : Session) : (g.begin s node).place ⟨s.scopes.size⟩ = node := by
  simp only [Legend.begin, Function.update_self]

@[simp]
theorem Legend.begin_made (s : Session) : (g.begin s node).made node = some 0 := by
  simp only [Legend.begin, Function.update_self]

theorem Legend.begin_node_of_lt {s : Session} {id : TypeId} (hid : id.index < s.arena.size) :
    (g.begin s node).node id = g.node id := by
  have hne : id ≠ ⟨s.arena.size⟩ := fun heq => Nat.ne_of_lt hid (congrArg TypeId.index heq)
  simp only [Legend.begin, Function.update_of_ne hne]

theorem Legend.begin_place_of_lt {s : Session} {i : ScopeId} (hi : i.index < s.scopes.size) :
    (g.begin s node).place i = g.place i := by
  have hne : i ≠ ⟨s.scopes.size⟩ := fun heq => Nat.ne_of_lt hi (congrArg ScopeId.index heq)
  simp only [Legend.begin, Function.update_of_ne hne]

open Classical in
theorem Legend.begin_of_ne (s : Session) (h : other ≠ node) :
    (g.begin s node).made other = g.made other :=
  Function.update_of_ne h _ _

end Legend

/-- The layouts of fields whose types are in given slots. The numbers are those of the flags and of
the positions given out before. -/
def layFields (verify : Bool) (shape : StructShape) (bindings : Bindings) :
    ℕ → ℕ → List Field → List TypeId → List FieldLayout
  | flags, position, .constant _ value :: rest, id :: ids =>
    ⟨.detached, .constant id value verify⟩ :: layFields verify shape bindings flags
      position rest ids
  | flags, position, .literal key value :: rest, ids =>
    match fieldPlace shape key position with
    | .ok (place, position) =>
      ⟨place, .literal value⟩ :: layFields verify shape bindings flags position rest ids
    | .error _ => []
  | flags, position, .typed key type :: rest, id :: ids =>
    match fieldPlace shape key position with
    | .ok (place, position) =>
      let nullable := (type.substitute bindings).nullable
      ⟨place, .value id (if nullable then some flags else none)⟩ ::
        layFields verify shape bindings (if nullable then flags + 1 else flags) position rest ids
    | .error _ => []
  | _, _, _, _ => []

/-- The layout of a struct whose fields' types are in given slots. -/
def structLayout (options : Options) (bindings : Bindings) (body : StructBody) (ids : List TypeId) :
    StructLayout :=
  if body.shape = .empty then ⟨.empty, 0, []⟩
  else ⟨body.shape, bitmapLength (flags bindings body.fields),
    layFields options.strictConstants body.shape bindings 0 0 body.fields ids⟩

/-- The layout of an instance of a builtin template whose parts are in given slots. -/
def builtinLayout? : Builtin → List Operand → List TypeId → Option Layout
  | .string, .constant (.string label) :: _, _ =>
    (TextEncoding.ofLabel? label).map fun encoding => .primitive (.string encoding)
  | .array, [_], [id] => some (.list id none)
  | .array, _ :: length :: _, [id] =>
    (length.toSize "Array length").toOption.map fun length => .list id (some length)
  | .padded, _ :: size :: _, [id] =>
    (size.toSize "Padded size").toOption.map fun size => .padded id size
  | .bytes, count :: _, _ => (count.toSize "Bytes length").toOption.map fun count => .bytes count
  | _, _, _ => none

/-- The variant of an entry whose body is in a slot. An empty body may have become the empty tuple;
of the discriminant nothing is said. -/
structure LaysVariant (s : Session) (g : Legend) (shape : EnumShape)
    (entry : EnumEntry) (raw : TypeId) (variant : VariantLayout) : Prop where
  name : variant.name = entry.variant
  tag : variant.tag = entry.tag
  payload : variant.payload = raw ∨ shape = .tuple ∧ variant.payload.index < s.arena.size ∧
    g.node variant.payload = .emptyTuple ∧ ∃ body, structBehind? s.arena raw = some body ∧
    body.shape = .empty

/-- The variants of entries whose bodies are in given slots. -/
inductive LaysVariants (s : Session) (g : Legend) (shape : EnumShape) :
    List EnumEntry → List TypeId → List VariantLayout → Prop
  | nil : LaysVariants s g shape [] [] []
  | cons {entry : EnumEntry} {raw : TypeId} {variant : VariantLayout} {entries : List EnumEntry}
      {raws : List TypeId} {variants : List VariantLayout}
      (first : LaysVariant s g shape entry raw variant)
      (rest : LaysVariants s g shape entries raws variants) :
      LaysVariants s g shape (entry :: entries) (raw :: raws) (variant :: variants)

/-- A field of a struct has a key if it needs one. -/
def Placed (shape : StructShape) : Field → Prop
  | .constant _ _ => True
  | .literal key _ | .typed key _ => shape = .tuple ∨ key.isSome

/-- The arguments of a builtin template are of the kinds for which it asks. -/
def BuiltinFormed : Builtin → List Operand → Prop
  | .string, .constant (.string label) :: _ => (TextEncoding.ofLabel? label).isSome
  | .array, [.type _] => True
  | .array, .type _ :: length :: _ => ∃ n, length.toSize "Array length" = .ok n
  | .padded, .type _ :: size :: _ => ∃ n, size.toSize "Padded size" = .ok n
  | .bytes, count :: _ => ∃ n, count.toSize "Bytes length" = .ok n
  | _, _ => False

/-- The body of a block keeps the rules for which nothing else has to be looked at. -/
def Formed (bindings : Bindings) : BlockBody → Prop
  | .definition (.struct body) =>
    body.shape = .empty ∨ ∀ field ∈ body.fields, Placed body.shape field
  | .definition (.enum _) => True
  | .definition (.synonym target) => (target.substitute bindings).nullable = false
  | .definition (.template ..) => False
  | .builtin builtin arguments => BuiltinFormed builtin arguments

/-- The layout of a block whose parts are in given slots. -/
def Lays (s : Session) (g : Legend) (bindings : Bindings) : BlockBody → List TypeId → Layout → Prop
  | .definition (.struct body), ids, layout =>
    layout = .struct (structLayout s.options bindings body ids)
  | .definition (.enum body), ids, layout => ∃ tag raws variants, ids = tag :: raws ∧
    LaysVariants s g body.shape body.entries raws variants ∧
    layout = .enum ⟨body.shape, tag, body.target.getD s.options.defaultTagField, variants⟩
  | .definition (.synonym _), ids, layout => ∃ id, ids = [id] ∧ layout = .synonym id
  | .definition (.template ..), _, _ => False
  | .builtin builtin arguments, ids, layout => builtinLayout? builtin arguments ids = some layout

namespace Source

variable (w : Source)

/-- The parts of a block, with enough levels. -/
def HasParts (node : Node) (block : Block) (parts : List Node) : Prop :=
  ∃ k, Reads (fun levels => w.parts (w.oracle levels) node block) 0 parts k

/-- A layout is that of a node. -/
inductive Laid (s : Session) (g : Legend) : Node → Layout → Prop
  | standard {id : TypeId} {type : CompiledType}
      (h : (initial w.options).arena.get? id = some type) :
      Laid s g (.standard id) type.layout
  | emptyTuple : Laid s g .emptyTuple (.struct ⟨.tuple, 0, []⟩)
  | array {owner element : Node} {position size : ℕ} {nullable : Bool} {id : TypeId}
      (hid : id.index < s.arena.size) (hnode : g.node id = element) (numeric : Option Primitive) :
      Laid s g (.array owner position element size nullable) (.array ⟨id, size, nullable, numeric⟩)
  | block {node : Node} {block : Block} {ids : List TypeId} {layout : Layout}
      (hblock : node.block? = some block)
      (hparts : w.Under s g fun w => w.HasParts node block (ids.map g.node))
      (hids : ∀ id ∈ ids, id.index < s.arena.size)
      (hlays : Lays s g block.bindings block.body ids layout) :
      Laid s g node layout

/-- A type is that of a node, and its namespace belongs to it. -/
structure Describes (s : Session) (g : Legend) (node : Node) (type : CompiledType) : Prop where
  scope : ∀ i, type.scope = some i →
    i.index < s.scopes.size ∧ g.place i = node ∧ node.locals?.isSome
  bound : w.Under s g fun w => w.Bounds node type.maxSize
  laid : w.Laid s g node type.layout
  formed : ∀ block, node.block? = some block → Formed block.bindings block.body
  named : ∀ home key body bindings, node = .keyed home key body bindings → '<' ∉ key.toList →
    w.standing? home key = some (.type node)

/-! ### Namespaces -/

/-- A namespace is that of a place. -/
structure Suits (g : Legend) (scope : Scope) (place : Node) : Prop where
  definitions : ∀ name, scope.definitions.get? name = (w.definitionsAt place).get? name
  bindings : Bindings.folded scope.bindings = place.bindings
  parent : scope.parent.map g.place = place.block?.map Block.home

/-- What a key of a place stands for. -/
structure Named (place : Node) (key : String) (node : Node) : Prop where
  made : (∃ body bindings, node = .keyed place key body bindings ∧ w.admits node) ∨
    standard? place key = some (.type node)
  plain : '<' ∉ key.toList → w.standing? place key = some (.type node)

/-- An entry is what its key stands for. -/
def Enters (s : Session) (g : Legend) (place : Node) (key : String) : Entry → Prop
  | .deferred template => '<' ∉ key.toList ∧ w.standing? place key = some (.template template)
  | .compiled id => id.index < s.arena.size ∧ w.Named place key (g.node id)
  | .locked id inner => id.index < s.arena.size ∧ w.Named place key (g.node id) ∧
    ∀ i, inner = some i → i.index < s.scopes.size ∧ g.place i = g.node id ∧
    (g.node id).locals?.isSome

/-- The namespaces of a session know what the definitions say. -/
structure Maps (s : Session) (g : Legend) : Prop where
  rooted : root.index < s.scopes.size ∧ g.place root = .root
  standard : ∀ key, rootEntries.contains key → key ∈ (s.scope root).entries.keys
  suits : ∀ i : ScopeId, i.index < s.scopes.size → w.Suits g (s.scope i) (g.place i)
  enters : ∀ i : ScopeId, i.index < s.scopes.size →
    ∀ key entry, (key, entry) ∈ (s.scope i).entries → w.Enters s g (g.place i) key entry

end Source

/-! ### Labels -/

/-- No node stands behind two slots and no place behind two namespaces; nodes are made one after the
other by blocks that have begun. -/
structure Labels (s : Session) (g : Legend) : Prop where
  nodes : ∀ id id' : TypeId, id.index < s.arena.size → id'.index < s.arena.size →
    g.node id = g.node id' → id = id'
  places : ∀ i i' : ScopeId, i.index < s.scopes.size → i'.index < s.scopes.size →
    g.place i = g.place i' → i = i'
  begun : ∀ id : TypeId, id.index < s.arena.size → (g.node id).block?.isSome →
    (g.made (g.node id)).isSome
  opened : ∀ i : ScopeId, i.index < s.scopes.size → g.place i = .root ∨ (g.made (g.place i)).isSome
  entered : ∀ home key body bindings, (g.made (.keyed home key body bindings)).isSome →
    ∃ i : ScopeId, i.index < s.scopes.size ∧ g.place i = home ∧ key ∈ (s.scope i).entries.keys
  loose : ∀ owner position home body bindings,
    (g.made (.loose owner position home body bindings)).isSome →
    g.Counts owner position
  arrays : ∀ id : TypeId, id.index < s.arena.size → ∀ owner position element size nullable,
    g.node id = .array owner position element size nullable → g.Counts owner position
  emptyTuple : ∀ id : TypeId, id.index < s.arena.size →
    (g.node id = .emptyTuple ↔ s.emptyTuple = some id)

/-- What holds of a session at every moment, whatever is compiled first. -/
structure Source.Follows (w : Source) (s : Session) (g : Legend) : Prop where
  options : s.options = w.options
  maps : w.Maps s g
  describes : ∀ id type, s.arena.get? id = some type → w.Describes s g (g.node id) type
  labels : Labels s g
  admitted : Covers s g w.admits

/-! ### Later sessions -/

/-- What was there stands for the same. -/
structure Agrees (s : Session) (g : Legend) (t : Session) (g' : Legend) : Prop where
  options : t.options = s.options
  arena : Arena.Extends s.arena t.arena
  scopes_le : s.scopes.size ≤ t.scopes.size
  node : ∀ id : TypeId, id.index < s.arena.size → g'.node id = g.node id
  place : ∀ i : ScopeId, i.index < s.scopes.size → g'.place i = g.place i

variable {w : Source} {s t u : Session} {g g' g'' : Legend}

theorem Agrees.trans (h : Agrees s g t g') (h' : Agrees t g' u g'') : Agrees s g u g'' where
  options := h'.options.trans h.options
  arena := h.arena.trans h'.arena
  scopes_le := h.scopes_le.trans h'.scopes_le
  node := fun id hid => (h'.node id (hid.trans_le h.arena.size_le)).trans (h.node id hid)
  place := fun i hi => (h'.place i (hi.trans_le h.scopes_le)).trans (h.place i hi)

namespace Agrees

variable (h : Agrees s g t g')

include h

theorem covers {admits : Node → Prop} (hcovers : Covers t g' admits) : Covers s g admits := by
  intro id hid hblock
  rw [← h.node id hid] at hblock ⊢
  exact hcovers id (hid.trans_le h.arena.size_le) hblock

theorem under {P : Source → Prop} (hunder : w.Under s g P) : w.Under t g' P :=
  fun admits hcovers => hunder admits (h.covers hcovers)

theorem map_node {ids : List TypeId} (hids : ∀ id ∈ ids, id.index < s.arena.size) :
    ids.map g'.node = ids.map g.node := List.map_congr_left fun id hid => h.node id (hids id hid)

theorem laysVariant {shape : EnumShape} {entry : EnumEntry} {raw : TypeId} {variant : VariantLayout}
    (hlays : LaysVariant s g shape entry raw variant) :
    LaysVariant t g' shape entry raw variant := by
  refine ⟨hlays.name, hlays.tag, hlays.payload.imp_right ?_⟩
  rintro ⟨hshape, hlt, hnode, body, hbehind, hempty⟩
  exact ⟨hshape, hlt.trans_le h.arena.size_le, (h.node _ hlt).trans hnode, body,
    structBehind?_of_extends h.arena hbehind, hempty⟩

theorem laysVariants {shape : EnumShape} {entries : List EnumEntry} {raws : List TypeId}
    {variants : List VariantLayout} (hlays : LaysVariants s g shape entries raws variants) :
    LaysVariants t g' shape entries raws variants := by
  induction hlays with
  | nil => exact .nil
  | cons first _ ih => exact .cons (h.laysVariant first) ih

theorem lays {bindings : Bindings} {body : BlockBody} {ids : List TypeId} {layout : Layout}
    (hlays : Lays s g bindings body ids layout) : Lays t g' bindings body ids layout := by
  rcases body with (body | body | target | ⟨parameters, body⟩) | ⟨builtin, arguments⟩
  · simp only [Lays, h.options] at hlays ⊢
    exact hlays
  · obtain ⟨tag, raws, variants, hids, hvariants, hlayout⟩ := hlays
    refine ⟨tag, raws, variants, hids, h.laysVariants hvariants, ?_⟩
    rw [h.options]
    exact hlayout
  · exact hlays
  · exact hlays
  · exact hlays

theorem laid {node : Node} {layout : Layout} (hlaid : w.Laid s g node layout) :
    w.Laid t g' node layout := by
  cases hlaid with
  | standard hget => exact .standard hget
  | emptyTuple => exact .emptyTuple
  | array hid hnode numeric =>
    exact .array (hid.trans_le h.arena.size_le) ((h.node _ hid).trans hnode) numeric
  | block hblock hparts hids hlays =>
    refine .block hblock ?_ (fun id hid => (hids id hid).trans_le h.arena.size_le) (h.lays hlays)
    rw [h.map_node hids]
    exact h.under hparts

theorem describes {node : Node} {type : CompiledType} (hdescribes : w.Describes s g node type) :
    w.Describes t g' node type where
  scope := by
    intro i hi
    obtain ⟨hlt, hplace, hlocals⟩ := hdescribes.scope i hi
    exact ⟨hlt.trans_le h.scopes_le, (h.place i hlt).trans hplace, hlocals⟩
  bound := h.under hdescribes.bound
  laid := h.laid hdescribes.laid
  formed := hdescribes.formed
  named := hdescribes.named

theorem enters {place : Node} {key : String} {entry : Entry}
    (henters : w.Enters s g place key entry) :
    w.Enters t g' place key entry := by
  cases entry with
  | deferred template => exact henters
  | compiled id =>
    obtain ⟨hlt, hnamed⟩ := henters
    exact ⟨hlt.trans_le h.arena.size_le, (h.node id hlt).symm ▸ hnamed⟩
  | locked id inner =>
    obtain ⟨hlt, hnamed, hinner⟩ := henters
    refine ⟨hlt.trans_le h.arena.size_le, (h.node id hlt).symm ▸ hnamed, fun i hi => ?_⟩
    obtain ⟨hi', hplace, hlocals⟩ := hinner i hi
    rw [h.place i hi', h.node id hlt]
    exact ⟨hi'.trans_le h.scopes_le, hplace, hlocals⟩

/-- The place of a namespace that was there is the same, and so is that of the namespace around
it. -/
theorem suits {i : ScopeId} (hs : s.Valid) (hi : i.index < s.scopes.size) {scope : Scope}
    (hparent : scope.parent = (s.scope i).parent)
    (hdefinitions : scope.definitions = (s.scope i).definitions)
    (hbindings : scope.bindings = (s.scope i).bindings)
    (hsuits : w.Suits g (s.scope i) (g.place i)) :
    w.Suits g' scope (g'.place i) := by
  rw [h.place i hi]
  refine ⟨fun name => ?_, ?_, ?_⟩
  · rw [hdefinitions]
    exact hsuits.definitions name
  · rw [hbindings]
    exact hsuits.bindings
  · rw [hparent, ← hsuits.parent]
    cases hp : (s.scope i).parent with
    | none => rfl
    | some parent =>
      have hlt := (hs.scopes _ _ (getElem?_scopes hi)).parent parent hp
      exact congrArg some (h.place parent (hlt.trans hi))

end Agrees

/-- What a namespace of a later session is if it was there. -/
structure Inherits (before after : Scope) : Prop where
  parent : after.parent = before.parent
  definitions : after.definitions = before.definitions
  bindings : after.bindings = before.bindings
  keys : ∀ key ∈ before.entries.keys, key ∈ after.entries.keys

theorem Inherits.refl (scope : Scope) : Inherits scope scope := ⟨rfl, rfl, rfl, fun _ h => h⟩

/-- The namespaces know what the definitions say if the new ones and the new entries do. -/
theorem Source.Maps.later (h : w.Maps s g) (hs : s.Valid) (hag : Agrees s g t g')
    (inherits : ∀ i : ScopeId, i.index < s.scopes.size → Inherits (s.scope i) (t.scope i))
    (suits : ∀ i : ScopeId, s.scopes.size ≤ i.index → i.index < t.scopes.size →
      w.Suits g' (t.scope i) (g'.place i))
    (enters : ∀ i : ScopeId, i.index < t.scopes.size →
      ∀ key entry, (key, entry) ∈ (t.scope i).entries →
      i.index < s.scopes.size ∧ (key, entry) ∈ (s.scope i).entries ∨ w.Enters t g'
      (g'.place i) key entry) : w.Maps t g' where
  rooted := ⟨h.rooted.1.trans_le hag.scopes_le, (hag.place _ h.rooted.1).trans h.rooted.2⟩
  standard := fun key hkey => (inherits root h.rooted.1).keys key (h.standard key hkey)
  suits := by
    intro i hi
    rcases Nat.lt_or_ge i.index s.scopes.size with hold | hnew
    · have hsame := inherits i hold
      exact hag.suits hs hold hsame.parent hsame.definitions hsame.bindings (h.suits i hold)
    · exact suits i hnew hi
  enters := by
    intro i hi key entry hentry
    rcases enters i hi key entry hentry with ⟨hold, hentry⟩ | hnew
    · rw [hag.place i hold]
      exact hag.enters (h.enters i hold key entry hentry)
    · exact hnew

/-- What a legend says of a slot that is new. -/
structure Labels.NewSlot (s : Session) (g : Legend) (t : Session) (g' : Legend)
    (id : TypeId) : Prop where
  index : id.index = s.arena.size
  node : ∀ old : TypeId, old.index < s.arena.size → g.node old ≠ g'.node id
  begun : (g'.node id).block?.isSome → (g'.made (g'.node id)).isSome
  array : ∀ owner position element size nullable,
    g'.node id = .array owner position element size nullable → g'.Counts owner position
  emptyTuple : g'.node id = .emptyTuple ↔ t.emptyTuple = some id

/-- What stands for a block is neither an array nor the empty tuple. -/
theorem Labels.NewSlot.of_block {s t : Session} {g g' : Legend} {id : TypeId} {block : Block}
    (hblock : (g'.node id).block? = some block) (index : id.index = s.arena.size)
    (node : ∀ old : TypeId, old.index < s.arena.size → g.node old ≠ g'.node id)
    (begun : (g'.made (g'.node id)).isSome) (emptyTuple : t.emptyTuple ≠ some id) :
    Labels.NewSlot s g t g' id where
  index := index
  node := node
  begun := fun _ => begun
  array := by
    intro owner position element size nullable heq
    rw [heq] at hblock
    cases hblock
  emptyTuple := by
    refine iff_of_false (fun heq => ?_) emptyTuple
    rw [heq] at hblock
    cases hblock

theorem next_ne_emptyTuple {s : Session} (hs : s.Valid) : s.emptyTuple ≠ some ⟨s.arena.size⟩ := by
  intro hempty
  obtain ⟨type, htype, -⟩ := hs.emptyTuple _ hempty
  exact Nat.lt_irrefl _ (s.arena.lt_size_of_get? htype)

/-- What a legend says of a namespace that is new. -/
structure Labels.NewPlace (s : Session) (g g' : Legend) (i : ScopeId) : Prop where
  index : i.index = s.scopes.size
  place : ∀ old : ScopeId, old.index < s.scopes.size → g.place old ≠ g'.place i
  opened : (g'.made (g'.place i)).isSome

/-- A block that has begun is found under its text, or its owner has made it. -/
def Labels.Begins (t : Session) (g' : Legend) : Node → Prop
  | .keyed home key _ _ =>
    ∃ i : ScopeId, i.index < t.scopes.size ∧ g'.place i = home ∧ key ∈ (t.scope i).entries.keys
  | .loose owner position _ _ _ => g'.Counts owner position
  | _ => True

/-- Names that tell apart what is old, and one new thing from that, tell everything apart. -/
theorem eq_of_later {ι α : Type} {name name' : ι → α} {index : ι → ℕ}
    (hindex : Function.Injective index) {n m : ℕ} (hold : ∀ i, index i < n → name' i = name i)
    (hinj : ∀ i j, index i < n → index j < n → name i = name j → i = j)
    (hnew : ∀ i, n ≤ index i → index i < m → index i = n ∧ ∀ old, index old < n →
      name old ≠ name' i) (i j : ι)
    (hi : index i < m) (hj : index j < m) (heq : name' i = name' j) : i = j := by
  rcases Nat.lt_or_ge (index i) n with hold_i | hnew_i
  · rw [hold i hold_i] at heq
    rcases Nat.lt_or_ge (index j) n with hold_j | hnew_j
    · rw [hold j hold_j] at heq
      exact hinj i j hold_i hold_j heq
    · exact absurd heq ((hnew j hnew_j hj).2 i hold_i)
  · rcases Nat.lt_or_ge (index j) n with hold_j | hnew_j
    · rw [hold j hold_j] at heq
      exact absurd heq.symm ((hnew i hnew_i hi).2 j hold_j)
    · exact hindex ((hnew i hnew_i hi).1.trans (hnew j hnew_j hj).1.symm)

/-- The labels are good if those of what is new are. -/
theorem Labels.later (h : Labels s g) (hag : Agrees s g t g')
    (keys : ∀ i : ScopeId, i.index < s.scopes.size → ∀ key ∈ (s.scope i).entries.keys,
      key ∈ (t.scope i).entries.keys)
    (made : ∀ node k, g.made node = some k → ∃ k' ≥ k, g'.made node = some k')
    (begins : ∀ node, (g'.made node).isSome → (g.made node).isSome ∨ Labels.Begins t g' node)
    (emptyTuple : ∀ id : TypeId, id.index < s.arena.size →
      (t.emptyTuple = some id ↔ s.emptyTuple = some id))
    (slot : ∀ id : TypeId, s.arena.size ≤ id.index → id.index < t.arena.size →
      Labels.NewSlot s g t g' id)
    (scope : ∀ i : ScopeId, s.scopes.size ≤ i.index → i.index < t.scopes.size →
      Labels.NewPlace s g g' i) :
    Labels t g' := by
  have hcounts : ∀ {owner position}, g.Counts owner position → g'.Counts owner position := by
    rintro owner position ⟨k, hk, hlt⟩
    obtain ⟨k', hle, hk'⟩ := made owner k hk
    exact ⟨k', hk', hlt.trans_le hle⟩
  have hbegun : ∀ {node}, (g.made node).isSome → (g'.made node).isSome := by
    intro node hnode
    obtain ⟨k, hk⟩ := Option.isSome_iff_exists.1 hnode
    obtain ⟨k', -, hk'⟩ := made node k hk
    rw [hk']
    rfl
  constructor
  case nodes =>
    exact eq_of_later (fun _ _ => congrArg TypeId.mk) hag.node h.nodes fun id hle hlt =>
      ⟨(slot id hle hlt).index, (slot id hle hlt).node⟩
  case places =>
    exact eq_of_later (fun _ _ => congrArg ScopeId.mk) hag.place h.places fun i hle hlt =>
      ⟨(scope i hle hlt).index, (scope i hle hlt).place⟩
  case begun =>
    intro id hid hblock
    rcases Nat.lt_or_ge id.index s.arena.size with hold | hnew
    · rw [hag.node id hold] at hblock ⊢
      exact hbegun (h.begun id hold hblock)
    · exact (slot id hnew hid).begun hblock
  case opened =>
    intro i hi
    rcases Nat.lt_or_ge i.index s.scopes.size with hold | hnew
    · rw [hag.place i hold]
      exact (h.opened i hold).imp_right hbegun
    · exact Or.inr (scope i hnew hi).opened
  case entered =>
    intro home key body bindings hmade
    rcases begins _ hmade with hold | hnew
    · obtain ⟨i, hi, hplace, hkey⟩ := h.entered home key body bindings hold
      exact ⟨i, hi.trans_le hag.scopes_le, (hag.place i hi).trans hplace, keys i hi key hkey⟩
    · exact hnew
  case loose =>
    intro owner position home body bindings hmade
    rcases begins _ hmade with hold | hnew
    · exact hcounts (h.loose owner position home body bindings hold)
    · exact hnew
  case arrays =>
    intro id hid owner position element size nullable hnode
    rcases Nat.lt_or_ge id.index s.arena.size with hold | hnew
    · rw [hag.node id hold] at hnode
      exact hcounts (h.arrays id hold owner position element size nullable hnode)
    · exact (slot id hnew hid).array owner position element size nullable hnode
  case emptyTuple =>
    intro id hid
    rcases Nat.lt_or_ge id.index s.arena.size with hold | hnew
    · rw [hag.node id hold, h.emptyTuple id hold, emptyTuple id hold]
    · exact (slot id hnew hid).emptyTuple

/-- The types are those of their nodes if the new ones are. -/
theorem Source.Follows.describes_later (h : w.Follows s g) (hag : Agrees s g t g')
    (new : ∀ id type, t.arena.get? id = some type →
      s.arena.get? id = some type ∨ w.Describes t g' (g'.node id) type) :
    ∀ id type, t.arena.get? id = some type → w.Describes t g' (g'.node id) type := by
  intro id type hid
  rcases new id type hid with hold | hnew
  · rw [hag.node id (s.arena.lt_size_of_get? hold)]
    exact hag.describes (h.describes id type hold)
  · exact hnew

/-- The blocks that stand in a session are admitted if the new ones are. -/
theorem Covers.later {admits : Node → Prop} (h : Covers s g admits) (hag : Agrees s g t g')
    (new : ∀ id : TypeId, s.arena.size ≤ id.index → id.index < t.arena.size →
      (g'.node id).block?.isSome → admits (g'.node id)) : Covers t g' admits := by
  intro id hid hblock
  rcases Nat.lt_or_ge id.index s.arena.size with hold | hnew
  · rw [hag.node id hold] at hblock ⊢
    exact h id hold hblock
  · exact new id hnew hid hblock

/-- Where no slot is new, what is admitted still is. -/
theorem Covers.same {admits : Node → Prop} (h : Covers s g admits) (hag : Agrees s g t g')
    (hsize : t.arena.size = s.arena.size) : Covers t g' admits :=
  h.later hag fun _ hle hlt => absurd (hsize ▸ hlt) (Nat.not_lt_of_le hle)

/-- A session follows the definitions with one more slot if the type in it is that of its node. -/
theorem Source.Follows.push (h : w.Follows s g) (hs : s.Valid) (hag : Agrees s g t g')
    {type : CompiledType} (harena : t.arena = (s.arena.push type).2) (hscopes : t.scopes = s.scopes)
    (made : ∀ node k, g.made node = some k → ∃ k' ≥ k, g'.made node = some k')
    (begins : ∀ node, (g'.made node).isSome → (g.made node).isSome ∨ Labels.Begins t g' node)
    (emptyTuple : ∀ id : TypeId, id.index < s.arena.size →
      (t.emptyTuple = some id ↔ s.emptyTuple = some id))
    (slot : Labels.NewSlot s g t g' ⟨s.arena.size⟩)
    (new : w.Describes t g' (g'.node ⟨s.arena.size⟩) type)
    (hadmits : (g'.node ⟨s.arena.size⟩).block?.isSome → w.admits (g'.node ⟨s.arena.size⟩)) :
    w.Follows t g' := by
  have hscope : ∀ i, t.scope i = s.scope i := fun i => by rw [Session.scope, hscopes, Session.scope]
  have hsize : t.arena.size = s.arena.size + 1 := by rw [harena, Arena.size_push]
  refine ⟨hag.options.trans h.options, ?_, h.describes_later hag ?_, ?_,
    h.admitted.later hag fun id hle hlt => ?_⟩
  · refine h.maps.later hs hag (fun i _ => ?_) (fun i hle hlt => ?_)
      fun i hi key entry hentry => Or.inl ?_
    · rw [hscope]
      exact .refl _
    · rw [hscopes] at hlt
      exact absurd hlt (Nat.not_lt_of_le hle)
    · rw [hscopes] at hi
      rw [hscope] at hentry
      exact ⟨hi, hentry⟩
  · intro id found hid
    rw [harena, Arena.get?_push] at hid
    split at hid
    · next hindex =>
      obtain rfl := Option.some.inj hid
      obtain rfl : id = ⟨s.arena.size⟩ := congrArg TypeId.mk hindex
      exact Or.inr new
    · exact Or.inl hid
  · refine h.labels.later hag (fun i _ key hkey => ?_) made begins emptyTuple (fun id hle hlt => ?_)
      fun i hle hlt => ?_
    · rwa [hscope]
    · obtain rfl : id = ⟨s.arena.size⟩ := congrArg TypeId.mk (by omega)
      exact slot
    · rw [hscopes] at hlt
      exact absurd hlt (Nat.not_lt_of_le hle)
  · obtain rfl : id = ⟨s.arena.size⟩ := congrArg TypeId.mk (by omega)
    exact hadmits

end Meaning

end Wireform
