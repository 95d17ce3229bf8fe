import Wireform.Session.Blocks

/-!
# Resolving names and references

A name is looked up in the namespaces around the place where it stands, and
compiled when it is first asked for. Each instance of a template is compiled once,
under its canonical text.

* `resolveName`: a name, with or without arguments.
* `resolveStep`: a reference, given what resolves the references inside it.
* `resolveType`: a reference, given how many levels of references may be resolved.
-/

namespace Wireform.Session

variable (resolve : Resolver)

/-- What a name without arguments stands for. -/
inductive Resolved where
  | type (id : TypeId)
  | template (template : Template)

/-- The text of an instance in messages. -/
def instanceText (name : String) (arguments : List Operand) : String :=
  (instanceKey? name arguments).getD (name ++ "<…>")

/-- A name of a namespace, without arguments; templates are entered but not compiled. -/
def resolveEntry (home : ScopeId) (name : String) : Compile Resolved := do
  let scope := (← get).scope home
  match scope.entries.get? name with
  | some (.compiled id) => return .type id
  | some (.locked slot _) => return .type slot
  | some (.deferred template) => return .template template
  | none =>
    match scope.definitions.get? name with
    | none => .fail (.undefinedType name)
    | some (.template parameters body) =>
      insert home name (.deferred (.user parameters body))
      return .template (.user parameters body)
    | some definition =>
      return .type
        (← compileBlock resolve home (some name) name (.definition definition) scope.bindings)

/-- The arguments that a template takes, if their number is right. -/
def templateArguments (name : String) (template : Template) (arguments : List Operand) :
    Except CompileError (List Operand) :=
  match template with
  | .builtin builtin => builtin.fillDefaults arguments
  | .user parameters _ =>
    if parameters.length = arguments.length then .ok arguments
    else .error (.genericArity name parameters.length arguments.length)

/-- A template takes the arguments that it is given; only a text without any gets its encoding. -/
theorem templateArguments_eq {name : String} {template : Template} {arguments taken : List Operand}
    (h : templateArguments name template arguments = .ok taken) :
    taken = arguments ∨ arguments = [] ∧ taken = [.string "utf-8"] := by
  cases template with
  | user parameters body =>
    simp only [templateArguments] at h
    split at h
    · exact Or.inl (Except.ok.inj h).symm
    · cases h
  | builtin builtin =>
    simp only [templateArguments, Builtin.fillDefaults] at h
    split at h
    · cases h
    · split at h
      · next hnone => exact Or.inr ⟨List.isEmpty_iff.1 hnone.2, (Except.ok.inj h).symm⟩
      · exact Or.inl (Except.ok.inj h).symm

/-- The instance of a template of a namespace: the known one, or a new one. -/
def instantiate (home : ScopeId) (name : String) (template : Template)
    (arguments : List Operand) : Compile TypeId := do
  let arguments ← orFail (templateArguments name template arguments)
  let key := instanceKey? name arguments
  let scope := (← get).scope home
  match key.bind scope.entries.get? with
  | some (.compiled id) => return id
  | some (.locked slot _) => return slot
  | some (.deferred _) => .fail (.violation (.instanceIsTemplate (instanceText name arguments)))
  | none =>
    let ident := instanceText name arguments
    match template with
    | .builtin builtin => compileBlock resolve home key ident (.builtin builtin arguments) []
    | .user parameters body =>
      let bindings := scope.bindings.putAll (parameters.zip arguments)
      compileBlock resolve home key ident (.definition body) bindings

/-- A name applied to arguments. -/
def resolveInstance (scope : ScopeId) (name : String) (arguments : List Operand)
    (localOnly : Bool) : Compile TypeId := do
  match (← get).lookup? scope name localOnly with
  | none => .fail (.undefinedType (instanceText name arguments))
  | some home =>
    match ← resolveEntry resolve home name with
    | .type _ => .fail (.genericArity name 0 arguments.length)
    | .template template => instantiate resolve home name template arguments

/-- A name as a type. A builtin template without arguments takes its defaults. -/
def resolveName (scope : ScopeId) (name : String) (arguments : Option (List Operand))
    (localOnly : Bool) : Compile TypeId := do
  match arguments with
  | some arguments => resolveInstance resolve scope name arguments localOnly
  | none =>
    match (← get).lookup? scope name localOnly with
    | none => .fail (.undefinedType name)
    | some home =>
      match ← resolveEntry resolve home name with
      | .type id => return id
      | .template (.builtin _) => resolveInstance resolve scope name [] localOnly
      | .template (.user parameters _) => .fail (.genericArity name parameters.length 0)

/-- The names of a path: each but the last one leads to a namespace, in which alone the next one
is looked up. -/
def resolvePath (whole : TypeRef) (bindings : Bindings) :
    ScopeId → Bool → List PathSegment → Compile TypeId
  | _, _, [] => .fail (.violation .emptyPath)
  | scope, localOnly, segment :: rest => do
    let arguments ← evaluateArguments resolve scope bindings segment.arguments
    let id ← resolveName resolve scope segment.name arguments localOnly
    match rest with
    | [] => return id
    | rest =>
      match (← get).nestedScope? id with
      | some inner => resolvePath whole bindings inner true rest
      | none => .fail (.undefinedType whole.describe)

/-- An inline struct gets a slot, but no entry. -/
def resolveInline (scope : ScopeId) (whole : TypeRef) (body : StructBody)
    (bindings : Bindings) : Compile TypeId := do
  let inner ← openLocals scope bindings (Definition.struct body).locals?
  let (layout, size) ← compileStruct resolve (inner.getD scope) body bindings
  push ⟨whole.describe, size, layout, inner⟩

/-- A reference, given what resolves the references inside it. -/
def resolveStep : Resolver := fun scope r bindings => do
  let r := r.substitute bindings
  match r.kind with
  | .parameter name =>
    match bindings.get? name with
    | some (.constant _) => .fail (.wanted name .type)
    | _ => .fail (.undefinedType name)
  | .inline body => resolveInline resolve scope r body bindings
  | .array element size => compileArray resolve scope element size bindings
  | .path segments => resolvePath resolve r bindings scope false segments
  | .named name arguments =>
    let arguments ← evaluateArguments resolve scope bindings arguments
    resolveName resolve scope name arguments false

/-- A reference, given how many levels of references may be resolved. -/
def resolveType : Nat → Resolver
  | 0 => fun _ _ _ => throw .outOfFuel
  | levels + 1 => resolveStep (resolveType levels)

/-- Compiles a top-level name; a template is entered but not compiled. -/
def compileName (levels : Nat) (name : String) : Compile Unit := atomically do
  match (← get).lookup? root name false with
  | none => .fail (.undefinedType name)
  | some home =>
    let _ ← resolveEntry (resolveType levels) home name

/-- Resolves a reference in the root namespace. -/
def resolveRef (levels : Nat) (r : TypeRef) : Compile TypeId :=
  atomically (resolveType levels root r [])

end Wireform.Session
