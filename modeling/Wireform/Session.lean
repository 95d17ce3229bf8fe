import Wireform.Layout.Containment
import Wireform.Options
import Wireform.Identifier.Canonical

/-!
# Compilation sessions

A session holds everything that compiling adds to: the arena and the namespaces.
The root namespace holds the primitives, the builtin templates and the top-level
definitions; nested ones hold what is local to an enum or a struct.

* `Session.initial`: the session before anything is defined.
* `Session.define`: one more top-level definition.
* `atomically`: a step that either succeeds or leaves no trace.
-/

namespace Wireform

/-- A template that is applied to arguments. -/
inductive Template where
  | user (parameters : List String) (body : Definition)
  | builtin (builtin : Builtin)

/-- What a name of a namespace has become. -/
inductive Entry where
  | compiled (id : TypeId)
  | deferred (template : Template)
  /-- It is being compiled into a slot; `scope` is its namespace. -/
  | locked (slot : TypeId) (scope : Option ScopeId)

/-- A namespace. -/
structure Scope where
  parent : Option ScopeId
  definitions : Assoc Definition
  entries : Assoc Entry
  /-- The arguments in force for its definitions. -/
  bindings : Bindings

/-- Everything that compiling adds to. -/
structure Session where
  arena : Arena
  scopes : Array Scope
  options : Options
  /-- The entries made since the last commit, the latest one in front. -/
  journal : List (ScopeId × String)
  /-- How many blocks are being compiled. -/
  depth : Nat
  /-- The shared tuple without fields. -/
  emptyTuple : Option TypeId

/-- Compiling on a session. -/
abbrev Compile := Compiling Session

namespace Session

/-- The root namespace. -/
def root : ScopeId := ⟨0⟩

/-- The type of a primitive. -/
def primitiveType (name : String) (p : Primitive) : CompiledType :=
  ⟨name, p.maxSize, .primitive p, none⟩

/-- The entries of the root namespace at the start. -/
def rootEntries : Assoc Entry :=
  (Primitive.registry.zipIdx.map fun (entry, i) => (entry.1, Entry.compiled ⟨i⟩)) ++
    Builtin.all.map fun builtin => (builtin.name, .deferred (.builtin builtin))

/-- The session before anything is defined. -/
def initial (options : Options) : Session where
  arena := ⟨(Primitive.registry.map fun (name, p) => some (primitiveType name p)).toArray⟩
  scopes := #[⟨none, [], rootEntries, []⟩]
  options := options
  journal := []
  depth := 0
  emptyTuple := none

/-- A namespace; one that does not exist is empty. -/
def scope (s : Session) (id : ScopeId) : Scope := s.scopes[id.index]?.getD ⟨none, [], [], []⟩

/-- Changes a namespace. -/
def changeScope (s : Session) (id : ScopeId) (change : Scope → Scope) : Session :=
  { s with scopes := s.scopes.modify id.index change }

/-- One more top-level definition; its name must be new. -/
def define (s : Session) (name : String) (definition : Definition) :
    Except CompileError Session :=
  let top := s.scope root
  if top.definitions.contains name || top.entries.contains name then
    .error (.duplicateDefinition name)
  else
    .ok (s.changeScope root fun top =>
      { top with definitions := top.definitions ++ [(name, definition)] })

/-- The names of the top-level definitions, in order. -/
def topLevelNames (s : Session) : List String := (s.scope root).definitions.keys

/-- The slot of a name of the root namespace that has been compiled. -/
def rootEntry? (s : Session) (name : String) : Option TypeId :=
  match (s.scope root).entries.get? name with
  | some (.compiled id) => some id
  | _ => none

/-- What a session goes back to. -/
structure Checkpoint where
  slots : Nat
  scopes : Nat
  journal : Nat

/-- The present point. -/
def checkpoint (s : Session) : Checkpoint := ⟨s.arena.size, s.scopes.size, s.journal.length⟩

/-- Removes the entry of a name. -/
def removeEntry (s : Session) (entry : ScopeId × String) : Session :=
  s.changeScope entry.1 fun scope => { scope with entries := scope.entries.erase entry.2 }

/-- Discards the entries, namespaces and slots that were made since a point. -/
def rollback (s : Session) (point : Checkpoint) : Session :=
  let newer := s.journal.length - point.journal
  let s := (s.journal.take newer).foldl removeEntry s
  { s with
    arena := s.arena.truncate point.slots
    scopes := s.scopes.take point.scopes
    journal := s.journal.drop newer
    depth := 0
    emptyTuple := s.emptyTuple.filter (·.index < point.slots) }

/-- Forgets which entries were made since a point; they are kept. -/
def commit (s : Session) (point : Checkpoint) : Session :=
  { s with journal := s.journal.drop (s.journal.length - point.journal) }

/-- No new type may contain itself. -/
def checkContainment (start : Nat) : Compile Unit := do
  let arena := (← get).arena
  match arena.cycle? start with
  | some id => .fail (.recursiveType (arena.slotName id))
  | none => pure ()

/-- Runs a step and checks the types it made. If either fails, the session is as it was before. -/
def atomically {α : Type} (step : Compile α) : Compile α := fun s =>
  let point := s.checkpoint
  let checked : Compile α := do
    let result ← step
    checkContainment point.slots
    return result
  match checked s with
  | .ok result after => .ok result (after.commit point)
  | .error stop after => .error stop (after.rollback point)

/-- Makes an entry and notes it in the journal. -/
def insert (home : ScopeId) (key : String) (entry : Entry) : Compile Unit :=
  modify fun s =>
    let s := s.changeScope home fun scope => { scope with entries := scope.entries.put key entry }
    { s with journal := (home, key) :: s.journal }

/-- Replaces an entry that is in the journal already. -/
def settle (home : ScopeId) (key : String) (entry : Entry) : Compile Unit :=
  modify fun s =>
    s.changeScope home fun scope => { scope with entries := scope.entries.put key entry }

/-- A slot that stays empty for now. -/
def reserve : Compile TypeId := modifyGet fun s =>
  let (id, arena) := s.arena.reserve
  (id, { s with arena })

/-- A slot with a type. -/
def push (type : CompiledType) : Compile TypeId := modifyGet fun s =>
  let (id, arena) := s.arena.push type
  (id, { s with arena })

/-- Puts a type into a slot. -/
def fill (id : TypeId) (type : CompiledType) : Compile Unit :=
  modify fun s => { s with arena := s.arena.fill id type }

/-- The upper bound of a type's length. -/
def maxSize (id : TypeId) : Compile Size := do return (← get).arena.maxSize id

/-- A namespace inside another one. -/
def openScope (parent : ScopeId) (definitions : Assoc Definition) (bindings : Bindings) :
    Compile ScopeId := modifyGet fun s =>
  (⟨s.scopes.size⟩, { s with scopes := s.scopes.push ⟨some parent, definitions, [], bindings⟩ })

/-- The namespace of a block's own definitions, if it has any. -/
def openLocals (parent : ScopeId) (bindings : Bindings) :
    Option (Assoc Definition) → Compile (Option ScopeId)
  | some definitions => some <$> openScope parent definitions bindings
  | none => pure none

/-- Whether a namespace knows a name. -/
def knows (s : Session) (id : ScopeId) (name : String) : Bool :=
  (s.scope id).entries.contains name || (s.scope id).definitions.contains name

/-- The innermost namespace around a given one that knows a name, given how many to look at. -/
def lookupWithin? (s : Session) (name : String) : Nat → ScopeId → Option ScopeId
  | 0, _ => none
  | count + 1, id =>
    if s.knows id name then some id
    else
      match (s.scope id).parent with
      | some parent => lookupWithin? s name count parent
      | none => none

/-- The namespace in which a name is found: the given one, or else one around it unless only the
given one counts. -/
def lookup? (s : Session) (id : ScopeId) (name : String) (localOnly : Bool) : Option ScopeId :=
  s.lookupWithin? name (if localOnly then 1 else s.scopes.size + 1) id

/-- The namespace of the type that is being compiled into a slot. -/
def lockedScope? (s : Session) (id : TypeId) : Option ScopeId :=
  s.scopes.toList.findSome? fun scope =>
    scope.entries.findSome? fun (_, entry) =>
      match entry with
      | .locked slot inner => if slot = id then inner else none
      | _ => none

/-- The namespace of a type, given how many synonyms may be passed. -/
def nestedScopeWithin? (s : Session) : Nat → TypeId → Option ScopeId
  | 0, _ => none
  | steps + 1, id =>
    match s.arena.get? id with
    | none => s.lockedScope? id
    | some type =>
      match type.scope, type.layout with
      | some scope, _ => some scope
      | none, .synonym target => nestedScopeWithin? s steps target
      | none, _ => none

/-- The namespace of a type, also of one that is being compiled. -/
def nestedScope? (s : Session) (id : TypeId) : Option ScopeId :=
  s.nestedScopeWithin? (s.arena.size + 1) id

end Session

end Wireform
