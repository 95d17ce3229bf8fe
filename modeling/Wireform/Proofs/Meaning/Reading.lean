import Wireform.Proofs.Converges
import Wireform.Proofs.Expression.Folding
import Wireform.Proofs.Expression.Substitution
import Wireform.Session.Resolution

/-!
# What definitions mean, whatever is compiled first

Which slot a type gets, and which other types are in progress when it is compiled, depends on the
order in which the definitions are compiled. A node says what a slot is for without telling the
order: a block by the block around it, its text, its body and the arguments in force; what has no
text by the block in which it was made and how much that had made before. The same holds for
namespaces, which belong to blocks.

Definitions are read from the nodes: a reference in a block is resolved to a node without compiling
anything, by looking at the definitions alone. Since nothing is ever in progress there is no order;
sizes and namespaces are found by reading on, with as many levels as it takes.

* `Node`: what slots and namespaces are for.
* `Source.resolveStep`: the node of a reference, given what resolves the references inside it.
* `Source.oracle`: the node of a reference, the size of a node and the namespace behind it, given
  how many levels may be read.
-/

namespace Wireform

/-- A definition with closed arithmetic folded; those that only it sees are left alone. -/
def Definition.folded : Definition → Definition
  | .struct body => .struct (foldedBody body)
  | .enum body => .enum { body with tagType := body.tagType.map TypeRef.folded }
  | .synonym target => .synonym target.folded
  | .template parameters body => .template parameters body

namespace Session.BlockBody

/-- What is compiled into a slot, with closed arithmetic folded. -/
def folded : BlockBody → BlockBody
  | .definition found => .definition found.folded
  | .builtin found arguments => .builtin found (arguments.map Operand.folded)

/-- The references of which a block's layout is made, in the order in which they are resolved. -/
def references (options : Options) : BlockBody → List TypeRef
  | .definition (.struct body) =>
    if body.shape = .empty then [] else body.fields.filterMap Field.type?
  | .definition (.enum body) =>
    body.tagType.getD (.named options.defaultTagType) :: body.entries.map
      fun entry => .named entry.variant
  | .definition (.synonym target) => [target]
  | .builtin .array (.type r :: _) => [r]
  | .builtin .padded (.type r :: _) => [r]
  | _ => []

end Session.BlockBody

namespace Meaning

open Session

/-- What a slot is for, or the block to which a namespace belongs. -/
inductive Node where
  /-- There are no slots for it: the namespace around all others. -/
  | root
  /-- A slot that is there at the start. -/
  | standard (id : TypeId)
  /-- A block that is found in the namespace of `home` under a text. -/
  | keyed (home : Node) (key : String) (body : BlockBody) (bindings : Bindings)
  /-- A block without a text: `owner` had made so many others before. -/
  | loose (owner : Node) (position : ℕ) (home : Node) (body : BlockBody) (bindings : Bindings)
  | array (owner : Node) (position : ℕ) (element : Node) (size : ℕ) (nullable : Bool)
  | emptyTuple

/-- What is compiled into the slot of a node, around whose own namespace lies that of `home`. -/
structure Block where
  home : Node
  body : BlockBody
  bindings : Bindings

namespace Node

/-- The block that a node stands for. -/
def block? : Node → Option Block
  | .keyed home _ body bindings => some ⟨home, body, bindings⟩
  | .loose _ _ home body bindings => some ⟨home, body, bindings⟩
  | _ => none

/-- The definitions that only a block sees. -/
def locals? (node : Node) : Option (Assoc Definition) := node.block?.bind (·.body.locals?)

/-- The arguments in force in a block. -/
def bindings (node : Node) : Bindings := (node.block?.map Block.bindings).getD []

/-- The node in whose namespace the references of a block are resolved. -/
def inside (node : Node) (block : Block) : Node :=
  if block.body.locals?.isSome then node else block.home

/-- The namespaces around a place, from the inside to the outside. -/
def around : Node → List Node
  | .keyed home key body bindings => .keyed home key body bindings :: home.around
  | .loose owner position home body bindings =>
    .loose owner position home body bindings :: home.around
  | place => [place]

end Node

/-- What a name of a namespace stands for. -/
inductive Standing where
  | type (node : Node)
  | template (template : Template)

/-- What the root namespace knows at the start. -/
def standard? : Node → String → Option Standing
  | .root, name =>
    match rootEntries.get? name with
    | some (.compiled id) => some (.type (.standard id))
    | some (.deferred template) => some (.template template)
    | _ => none
  | _, _ => none

/-- What a definition under a name of a namespace stands for. -/
def Node.standing (place : Node) (name : String) : Definition → Standing
  | .template parameters body => .template (.user parameters body)
  | definition => .type (.keyed place name (BlockBody.definition definition).folded place.bindings)

/-- Definitions, and how they are compiled. -/
structure Source where
  definitions : Assoc Definition
  options : Options
  /-- The blocks that are read; another one is not looked into. -/
  admits : Node → Prop

/-- Reading inside a block that has made so many nodes without a text. -/
abbrev Reading := Compiling ℕ

namespace Reading

/-- One more node without a text. -/
def next : Reading ℕ := modifyGet fun position => (position, position + 1)

/-- A result that may be an error. -/
def orFail {α : Type} : Except CompileError α → Reading α
  | .ok value => pure value
  | .error error => .fail error

/-- A name that is looked up must not look like the text of an instance. -/
def plainly {α : Type} (name : String) (x : Reading α) : Reading α :=
  if '<' ∈ name.toList then throw .outOfFuel else x

end Reading

/-- What tells the nodes of references, the sizes of nodes and the namespaces behind them. -/
structure Oracle where
  /-- In a block `owner`, a reference in the namespace of a node under bindings. -/
  resolve : (owner place : Node) → TypeRef → Bindings → Reading Node
  size : Node → Size
  nested? : Node → Option Node

section Expressions

variable (o : Oracle) (owner place : Node) (bindings : Bindings)

/-- The operand that an expression leaves. -/
def evaluate (expr : Expr) : Reading Operand := do
  let sizeOf (r : TypeRef) : Reading Size := do return o.size (← o.resolve owner place r.folded [])
  return (← Expression.evaluate sizeOf bindings expr).folded

/-- The operands of an argument list, if there is one. -/
def evaluateArguments : Option (List Expr) → Reading (Option (List Operand))
  | none => pure none
  | some arguments => do return some (← arguments.mapM (evaluate o owner place bindings))

/-- An array of fixed length. -/
def resolveArray (element : TypeRef) (size : Expr) : Reading Node := do
  let element := (element.substitute bindings).folded
  let size ← evaluate o owner place bindings size
  let size ← Reading.orFail (size.toSize "array size")
  let node ← o.resolve owner place element bindings
  let position ← Reading.next
  return .array owner position node size element.nullable

end Expressions

namespace Source

variable (w : Source)

/-- The definitions that belong to a namespace. -/
def definitionsAt : Node → Assoc Definition
  | .root => w.definitions
  | place => place.locals?.getD []

/-- What a name of a namespace stands for. -/
def standing? (place : Node) (name : String) : Option Standing :=
  (standard? place name).or (((w.definitionsAt place).get? name).map (place.standing name))

/-- The innermost namespace around a place that knows a name, or only the place itself. -/
def home? (place : Node) (name : String) (localOnly : Bool) : Option Node :=
  (if localOnly then [place] else place.around).find? fun home => (w.standing? home name).isSome

open Classical in
/-- A node is read on only if it is admitted. -/
noncomputable def ask (node : Node) : Reading Node :=
  if node.block?.isSome → w.admits node then pure node else throw .outOfFuel

/-! ### Names -/

/-- The block of an instance. -/
def instanceOf (home : Node) (template : Template) (arguments : List Operand) :
    BlockBody × Bindings :=
  match template with
  | .builtin builtin => (.builtin builtin arguments, [])
  | .user parameters body =>
    ((BlockBody.definition body).folded, home.bindings.putAll (parameters.zip arguments))

/-- The instance of a template of a namespace. -/
noncomputable def instantiate (owner home : Node) (name : String) (template : Template)
    (arguments : List Operand) : Reading Node := do
  let arguments ← Reading.orFail (templateArguments name template arguments)
  let (body, bindings) := instanceOf home template arguments
  match instanceKey? name arguments with
  | some key => w.ask (.keyed home key body bindings)
  | none => do
    let position ← Reading.next
    w.ask (.loose owner position home body bindings)

/-- A name applied to arguments. -/
noncomputable def resolveInstance (owner place : Node) (name : String) (arguments : List Operand)
    (localOnly : Bool) : Reading Node :=
  Reading.plainly name do
    match w.home? place name localOnly with
    | none => .fail (.undefinedType name)
    | some home =>
      match w.standing? home name with
      | some (.template template) => w.instantiate owner home name template arguments
      | _ => .fail (.genericArity name 0 arguments.length)

/-- A name as a type. -/
noncomputable def resolveName (owner place : Node) (name : String)
    (arguments : Option (List Operand)) (localOnly : Bool) : Reading Node :=
  match arguments with
  | some arguments => w.resolveInstance owner place name arguments localOnly
  | none =>
    Reading.plainly name do
      match w.home? place name localOnly with
      | none => .fail (.undefinedType name)
      | some home =>
        match w.standing? home name with
        | some (.type node) => w.ask node
        | some (.template (.builtin _)) => w.resolveInstance owner place name [] localOnly
        | _ => .fail (.genericArity name 0 0)

/-! ### References -/

variable (o : Oracle)

/-- The names of a path. -/
noncomputable def resolvePath (owner : Node) (bindings : Bindings) :
    Node → Bool → List PathSegment → Reading Node
  | _, _, [] => .fail (.violation .emptyPath)
  | place, localOnly, segment :: rest => do
    let arguments ← evaluateArguments o owner place bindings segment.arguments
    let node ← w.resolveName owner place segment.name arguments localOnly
    match rest with
    | [] => return node
    | rest =>
      match o.nested? node with
      | some inner => resolvePath owner bindings inner true rest
      | none => .fail (.undefinedType segment.name)

/-- An inline struct. -/
noncomputable def resolveInline (owner place : Node) (body : StructBody) (bindings : Bindings) :
    Reading Node := do
  let position ← Reading.next
  w.ask (.loose owner position place (.definition (.struct body)) bindings)

/-- A reference, given what resolves the references inside it. -/
noncomputable def resolveStep (owner place : Node) (r : TypeRef) (bindings : Bindings) :
    Reading Node := do
  match (r.substitute bindings).folded.kind with
  | .parameter name => .fail (.undefinedType name)
  | .inline body => w.resolveInline owner place body bindings
  | .array element size => resolveArray o owner place bindings element size
  | .path segments => w.resolvePath o owner bindings place false segments
  | .named name arguments =>
    let arguments ← evaluateArguments o owner place bindings arguments
    w.resolveName owner place name arguments false

/-! ### Blocks -/

/-- The nodes of which a block's layout is made. -/
def parts (node : Node) (block : Block) : Reading (List Node) :=
  (block.body.references w.options).mapM
    fun r => o.resolve node (node.inside block) r block.bindings

end Source

/-- How many fields of a struct may be `null`. -/
def flags (bindings : Bindings) (fields : List Field) : ℕ :=
  fields.countP fun field =>
    match field with
    | .typed _ type => (type.substitute bindings).nullable
    | _ => false

/-- The bound of an array of fixed length. -/
def arrayBound (element : Size) (size : ℕ) (nullable : Bool) : Size :=
  if nullable then element.times size + .bounded (bitmapLength size) else element.times size

/-- The bound of a block whose parts have these bounds. -/
def blockBound (bindings : Bindings) : BlockBody → List Size → Size
  | .definition (.struct body), sizes =>
    if body.shape = .empty then .zero
    else sizes.foldl (· + ·) .zero + .bounded (bitmapLength (flags bindings body.fields))
  | .definition (.enum _), tag :: payloads => tag + payloads.foldl Size.max .zero
  | .definition (.synonym _), [target] => target
  | .builtin .array (_ :: length :: _), [element] =>
    match length.toSize "Array length" with
    | .ok length => .bounded (Wire.uvarLength length) + element.times length
    | .error _ => .unbounded
  | .builtin .padded (_ :: size :: _), _ =>
    match size.toSize "Padded size" with
    | .ok size => .bounded size
    | .error _ => .unbounded
  | .builtin .bytes (count :: _), _ =>
    match count.toSize "Bytes length" with
    | .ok count => .bounded count
    | .error _ => .unbounded
  | _, _ => .unbounded

namespace Source

variable (w : Source) (o : Oracle)

/-- The bound of a node, given those of other nodes. -/
def sizeStep (node : Node) : Size :=
  match node with
  | .standard id => (initial w.options).arena.maxSize id
  | .emptyTuple => .zero
  | .array _ _ element size nullable => arrayBound (o.size element) size nullable
  | node =>
    match node.block? with
    | none => .unbounded
    | some block =>
      match w.parts o node block 0 with
      | .ok parts _ => blockBound block.bindings block.body (parts.map o.size)
      | .error _ _ => .unbounded

/-- The namespace behind a node, given those behind other nodes. -/
def nestedStep? (node : Node) : Option Node :=
  match node.block? with
  | none => none
  | some block =>
    if block.body.locals?.isSome then some node
    else
      match block.body, w.parts o node block 0 with
      | .definition (.synonym _), .ok [target] _ => o.nested? target
      | _, _ => none

/-- What is known at so many levels. -/
noncomputable def oracle : ℕ → Oracle
  | 0 => ⟨fun _ _ r _ => .fail (.recursionLimit r.describe 0), fun _ => .unbounded, fun _ => none⟩
  | levels + 1 =>
    let o := oracle levels
    ⟨w.resolveStep o, w.sizeStep o, w.nestedStep? o⟩

end Source

end Meaning

end Wireform
