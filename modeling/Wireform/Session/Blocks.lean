import Wireform.Session

/-!
# Compiling blocks

A block is a named definition, an instance of a template or an inline struct. The
references inside it are resolved by a function that is given, so nothing here is
recursive.

* `compileStruct`, `compileEnum`, `compileArray`: the layouts of blocks.
* `compileBlock`: a block that gets a slot and, if it has a key, an entry.
-/

namespace Wireform.Session

/-- What resolves a reference in a namespace under bindings. -/
abbrev Resolver := ScopeId → TypeRef → Bindings → Compile TypeId

/-- A result that may be an error. -/
def orFail {α : Type} : Except CompileError α → Compile α
  | .ok value => pure value
  | .error error => .fail error

variable (resolve : Resolver)

/-- The operand that an expression leaves; sizes are those of compiled types. -/
def evaluate (scope : ScopeId) (bindings : Bindings) (expr : Expr) : Compile Operand :=
  Expression.evaluate (fun r => do maxSize (← resolve scope r [])) bindings expr

/-- The operands of an argument list, if there is one. -/
def evaluateArguments (scope : ScopeId) (bindings : Bindings) :
    Option (List Expr) → Compile (Option (List Operand))
  | none => pure none
  | some arguments => do return some (← arguments.mapM (evaluate resolve scope bindings))

/-! ### Structs -/

/-- A struct as far as it has been compiled. -/
structure PartialStruct where
  /-- The fields, the latest one in front. -/
  fields : List FieldLayout
  maxSize : Size
  /-- The number of fields that may be `null`. -/
  flags : Nat
  /-- The number of positions given out. -/
  position : Nat

/-- The place of the next field; in an object it needs a key. -/
def fieldPlace (shape : StructShape) (key : Option String) (position : Nat) :
    Except CompileError (FieldPlace × Nat) :=
  match shape, key with
  | .tuple, _ => .ok (.position position, position + 1)
  | _, some key => .ok (.key key, position)
  | _, none => .error (.violation .keylessField)

/-- One more field. -/
def compileField (scope : ScopeId) (bindings : Bindings) (shape : StructShape)
    (p : PartialStruct) : Field → Compile PartialStruct
  | .constant type value => do
    let id ← resolve scope type bindings
    let size ← maxSize id
    let verify := (← get).options.strictConstants
    return { p with
      fields := ⟨.detached, .constant id value verify⟩ :: p.fields
      maxSize := p.maxSize + size }
  | .literal key value => do
    let (place, position) ← orFail (fieldPlace shape key p.position)
    return { p with fields := ⟨place, .literal value⟩ :: p.fields, position }
  | .typed key type => do
    let (place, position) ← orFail (fieldPlace shape key p.position)
    let nullable := (type.substitute bindings).nullable
    let id ← resolve scope type bindings
    let size ← maxSize id
    return {
      fields := ⟨place, .value id (if nullable then some p.flags else none)⟩ :: p.fields
      maxSize := p.maxSize + size
      flags := if nullable then p.flags + 1 else p.flags
      position }

/-- All fields, in order. -/
def compileFields (scope : ScopeId) (bindings : Bindings) (shape : StructShape) :
    PartialStruct → List Field → Compile PartialStruct
  | p, [] => pure p
  | p, field :: rest => do
    let p ← compileField resolve scope bindings shape p field
    compileFields scope bindings shape p rest

/-- The layout and upper bound of a struct. -/
def compileStruct (scope : ScopeId) (body : StructBody) (bindings : Bindings) :
    Compile (Layout × Size) := do
  match body.shape with
  | .empty => return (.struct ⟨.empty, 0, []⟩, .zero)
  | shape =>
    let p ← compileFields resolve scope bindings shape ⟨[], .zero, 0, 0⟩ body.fields
    let bitmapBytes := bitmapLength p.flags
    return (.struct ⟨shape, bitmapBytes, p.fields.reverse⟩, p.maxSize + .bounded bitmapBytes)

/-! ### Arrays -/

/-- An array of fixed length gets a slot, but no entry. -/
def compileArray (scope : ScopeId) (element : TypeRef) (size : Expr) (bindings : Bindings) :
    Compile TypeId := do
  let element := element.substitute bindings
  let size ← evaluate resolve scope bindings size
  let size ← orFail (size.toSize "array size")
  let id ← resolve scope element bindings
  let arena := (← get).arena
  let numeric := match (arena.peel? id).map CompiledType.layout with
    | some (.primitive p) => if p.isNumeric then some p else none
    | _ => none
  let elements := (arena.maxSize id).times size
  let bound := if element.nullable then elements + .bounded (bitmapLength size) else elements
  let name := match arena.get? id with
    | some type => type.ident
    | none => "…"
  let mark := if element.nullable then "?" else ""
  push ⟨"[" ++ mark ++ name ++ "; " ++ toString size ++ "]", bound,
    .array ⟨id, size, element.nullable, numeric⟩, none⟩

/-! ### Enums -/

/-- The tuple without fields, made when it is first needed. -/
def sharedEmptyTuple : Compile TypeId := do
  match (← get).emptyTuple with
  | some id => return id
  | none =>
    let id ← push ⟨"()", .zero, .struct ⟨.tuple, 0, []⟩, none⟩
    modify fun s => { s with emptyTuple := some id }
    return id

/-- The struct behind synonyms, if there is one. -/
def structBehind? (arena : Arena) (id : TypeId) : Option StructLayout :=
  match (arena.peel? id).map CompiledType.layout with
  | some (.struct s) => some s
  | _ => none

/-- The literal that a struct has as its first field. -/
def leadingLiteral? (s : StructLayout) : Option Json :=
  match s.fields with
  | ⟨_, .literal value⟩ :: _ => some value
  | _ => none

/-- The variant of an entry whose body is in a slot. In a tuple enum a literal in front of the body
is the discriminant, and an empty body becomes the empty tuple; in an object enum a literal under
the target key is the discriminant. Otherwise the discriminant is the name. -/
def variantLayout (shape : EnumShape) (target : String) (entry : EnumEntry) (payload : TypeId) :
    Compile VariantLayout := do
  let body := structBehind? (← get).arena payload
  match shape with
  | .tuple =>
    let literal := body.bind leadingLiteral?
    let payload ←
      if body.any (·.shape = .empty) then sharedEmptyTuple else pure payload
    return ⟨entry.variant, entry.tag, literal.getD (.string entry.variant), payload,
      literal.isSome, false⟩
  | .object =>
    let literal := body.bind (·.literalAt? (.key target))
    return ⟨entry.variant, entry.tag, literal.getD (.string entry.variant), payload, false,
      literal.isSome⟩

/-- The variants of some entries, in order, and the greatest upper bound of a payload. -/
def compileVariants (scope : ScopeId) (bindings : Bindings) (shape : EnumShape)
    (target : String) : Size → List EnumEntry → Compile (List VariantLayout × Size)
  | greatest, [] => pure ([], greatest)
  | greatest, entry :: rest => do
    let payload ← resolve scope (.named entry.variant) bindings
    let variant ← variantLayout shape target entry payload
    let size ← maxSize variant.payload
    let (variants, greatest) ←
      compileVariants scope bindings shape target (greatest.max size) rest
    return (variant :: variants, greatest)

/-- The layout and upper bound of an enum. -/
def compileEnum (scope : ScopeId) (body : EnumBody) (bindings : Bindings) :
    Compile (Layout × Size) := do
  let options := (← get).options
  let tag ← resolve scope (body.tagType.getD (.named options.defaultTagType)) bindings
  let target := body.target.getD options.defaultTagField
  let (variants, greatest) ←
    compileVariants resolve scope bindings body.shape target .zero body.entries
  return (.enum ⟨body.shape, tag, target, variants⟩, (← maxSize tag) + greatest)

/-! ### Builtin templates -/

/-- An argument that has to be a type. -/
def typeArgument (scope : ScopeId) (builtin : Builtin) : Operand → Compile TypeId
  | .type r => resolve scope r []
  | .constant _ => .fail (.wanted builtin.name .type)

/-- The layout and upper bound of an instance of a builtin template. -/
def compileBuiltin (scope : ScopeId) (builtin : Builtin) (arguments : List Operand) :
    Compile (Layout × Size) := do
  match builtin, arguments with
  | .string, .constant (.string label) :: _ =>
    match TextEncoding.ofLabel? label with
    | some encoding => return (.primitive (.string encoding), .unbounded)
    | none => .fail (.unsupportedEncoding label)
  | .string, _ => .fail (.wanted builtin.name .encoding)
  | .array, [element] =>
    return (.list (← typeArgument resolve scope builtin element) none, .unbounded)
  | .array, element :: length :: _ =>
    let id ← typeArgument resolve scope builtin element
    let length ← orFail (length.toSize "Array length")
    let elements := (← maxSize id).times length
    return (.list id (some length), .bounded (Wire.uvarLength length) + elements)
  | .padded, inner :: size :: _ =>
    let id ← typeArgument resolve scope builtin inner
    let size ← orFail (size.toSize "Padded size")
    return (.padded id size, .bounded size)
  | .bytes, count :: _ =>
    let count ← orFail (count.toSize "Bytes length")
    return (.bytes count, .bounded count)
  | builtin, arguments =>
    .fail (.genericArity builtin.name builtin.arity.1 arguments.length)

/-! ### Blocks -/

/-- What is compiled into a slot. -/
inductive BlockBody where
  | definition (definition : Definition)
  | builtin (builtin : Builtin) (arguments : List Operand)

/-- The definitions that only a block sees. -/
def BlockBody.locals? : BlockBody → Option (Assoc Definition)
  | .definition body => body.locals?
  | .builtin .. => none

/-- The layout and upper bound of a definition. -/
def compileDefinition (scope : ScopeId) (ident : String) (definition : Definition)
    (bindings : Bindings) : Compile (Layout × Size) := do
  match definition with
  | .struct body => compileStruct resolve scope body bindings
  | .enum body => compileEnum resolve scope body bindings
  | .synonym target =>
    if (target.substitute bindings).nullable then .fail (.violation (.nullableSynonym ident))
    else
      let id ← resolve scope target bindings
      return (.synonym id, ← maxSize id)
  | .template .. => .fail (.violation (.nestedTemplate ident))

/-- The layout and upper bound of a block, whose own namespace has been opened. -/
def compileBody (home : ScopeId) (nested : Option ScopeId) (ident : String) (bindings : Bindings) :
    BlockBody → Compile (Layout × Size)
  | .definition definition =>
    compileDefinition resolve (nested.getD home) ident definition bindings
  | .builtin builtin arguments => compileBuiltin resolve home builtin arguments

/-- Enters the block that is compiled into a slot under its key, if it has one. -/
def lockEntry (home : ScopeId) (slot : TypeId) (nested : Option ScopeId) :
    Option String → Compile Unit
  | some key => insert home key (.locked slot nested)
  | none => pure ()

/-- The slot and the namespace of a new block, which is one level deeper. -/
def beginBlock (home : ScopeId) (key : Option String) (locals : Option (Assoc Definition))
    (bindings : Bindings) : Compile (TypeId × Option ScopeId) := do
  let slot ← reserve
  let nested ← openLocals home bindings locals
  lockEntry home slot nested key
  modify fun s => { s with depth := s.depth + 1 }
  return (slot, nested)

/-- A locked entry becomes a compiled one. -/
def settleEntry (home : ScopeId) (slot : TypeId) : Option String → Compile Unit
  | some key => settle home key (.compiled slot)
  | none => pure ()

/-- The type of a block goes into its slot. -/
def endBlock (home : ScopeId) (key : Option String) (slot : TypeId) (type : CompiledType) :
    Compile Unit := do
  modify fun s => { s with depth := s.depth - 1 }
  fill slot type
  settleEntry home slot key

/-- A block gets a slot at once, so that its own parts can refer to it, and then its layout. If it
has a key it is entered under the key, first as locked and then as compiled. -/
def compileBlock (home : ScopeId) (key : Option String) (ident : String) (body : BlockBody)
    (bindings : Bindings) : Compile TypeId := do
  let s ← get
  if s.options.maxDepth ≤ s.depth then
    .fail (.recursionLimit ident s.options.maxDepth)
  else
    let (slot, nested) ← beginBlock home key body.locals? bindings
    let (layout, size) ← compileBody resolve home nested ident bindings body
    endBlock home key slot ⟨ident, size, layout, nested⟩
    return slot

end Wireform.Session
