import Wireform.Assoc

/-!
# Command-line arguments

Options may come in any order, with the value behind the option, after an equals
sign or, for a one-letter option, attached to it. After `--` nothing is an option.

* `Arguments.parse`: the command that the arguments ask for.
-/

namespace Wireform.CommandLine

/-- Why arguments ask for no command. -/
inductive UsageError where
  | help
  /-- There are no arguments at all. -/
  | nothingGiven
  | missingSubcommand
  | invalidSubcommand
  | unknownArgument
  /-- Arguments exclude each other, or one is repeated that may come only once. -/
  | conflict
  /-- An option has no value. -/
  | missingValue
  /-- An option that takes no value has one. -/
  | surplusValue
  | missingRequired
deriving DecidableEq

/-- How many values an option takes. -/
inductive Values where
  | none
  | one
  /-- One or more, in one place or in several. -/
  | many
deriving DecidableEq

/-- An option of a command. -/
structure OptionSpec where
  name : String
  letter : Option Char
  values : Values
  /-- Whether a value may be empty. -/
  emptyAllowed : Bool

/-- What words that belong to no option are. -/
inductive Words where
  /-- The first one names a command, and what follows is the command's. -/
  | command (names : List String)
  | refused
  | collected
deriving DecidableEq

/-- What has been read of the arguments. -/
structure Reading where
  /-- The values of each option that was given. -/
  given : Assoc (List String)
  /-- The option that was read last if its value was not attached to it, and its values so far, the
  latest one in front. It is looked at only when the next known option or word comes, so that an
  unknown one is reported first. -/
  pending : Option (OptionSpec × List String)
  /-- The words that belong to no option, the latest one in front. -/
  words : List String

namespace Reading

/-- Nothing has been read. -/
def start : Reading := ⟨[], none, []⟩

/-- Notes the values of an option; only an option with many values may come again. -/
def record (r : Reading) (spec : OptionSpec) (values : List String) :
    Except UsageError Reading := do
  let before := r.given.get? spec.name
  if before.isSome && spec.values ≠ .many then .error .conflict
  if !spec.emptyAllowed && values.contains "" then .error .missingValue
  return { r with given := r.given.put spec.name (before.getD [] ++ values) }

/-- Notes the pending option; it needs a value. -/
def settle (r : Reading) : Except UsageError Reading :=
  match r.pending with
  | none => .ok r
  | some (_, []) => .error .missingValue
  | some (spec, values) => { r with pending := none }.record spec values.reverse

/-- The pending option and its values if it takes the next word. -/
def open? (r : Reading) : Option (OptionSpec × List String) :=
  r.pending.filter fun (spec, values) => spec.values = .many || values.isEmpty

/-- One option, with a value that is attached to it, if any. -/
def option (r : Reading) (spec : OptionSpec) (attached : Option String) :
    Except UsageError Reading := do
  if spec.values = .none && attached.isSome then .error .surplusValue
  let r ← r.settle
  match spec.values, attached with
  | .none, _ => if spec.name = "help" then .error .help else r.record spec []
  | _, some value => r.record spec [value]
  | _, none => .ok { r with pending := some (spec, []) }

/-- One-letter options that are written together; what follows one with values is its value. -/
def letters (specs : List OptionSpec) : Reading → List Char → Except UsageError Reading
  | r, [] => .ok r
  | r, letter :: rest =>
    match specs.find? (·.letter = some letter) with
    | none => .error .unknownArgument
    | some spec =>
      if spec.values = .none then do letters specs (← r.option spec none) rest
      else
        match rest with
        | [] => r.option spec none
        | '=' :: value => r.option spec (some (String.ofList value))
        | value => r.option spec (some (String.ofList value))

/-- An option by its name, with a value after an equals sign, if any. -/
def long (specs : List OptionSpec) (r : Reading) (text : List Char) :
    Except UsageError Reading :=
  let (name, rest) := text.span (· ≠ '=')
  match specs.find? (·.name = String.ofList name) with
  | none => .error .unknownArgument
  | some spec => r.option spec (rest.tail?.map String.ofList)

/-- A word that belongs to no option and names no command. -/
def word (words : Words) (r : Reading) (text : String) : Except UsageError Reading :=
  match words with
  | .command _ => .error .invalidSubcommand
  | .refused => .error .unknownArgument
  | .collected => do
    let r ← r.settle
    return { r with words := text :: r.words }

/-- The words after `--`, none of which is an option or a command. -/
def remainder (words : Words) (r : Reading) (texts : List String) : Except UsageError Reading :=
  match words, texts with
  | .command names, text :: _ =>
    .error (if names.contains text then .unknownArgument else .invalidSubcommand)
  | _, _ => texts.foldlM (word words) r

/-- Reads arguments up to a word that names a command; it is returned with what follows it. -/
def read (specs : List OptionSpec) (words : Words) :
    Reading → List String → Except UsageError (Reading × List String)
  | r, [] => .ok (r, [])
  | r, text :: rest =>
    match text.toList with
    | ['-', '-'] => do return (← remainder words r rest, [])
    | '-' :: '-' :: name => do read specs words (← long specs r name) rest
    | '-' :: first :: more => do read specs words (← letters specs r (first :: more)) rest
    | _ =>
      match r.open?, words with
      | some (spec, values), _ =>
        read specs words { r with pending := some (spec, text :: values) } rest
      | none, .command names =>
        if names.contains text then .ok (r, text :: rest) else .error .invalidSubcommand
      | none, _ => do read specs words (← word words r text) rest

/-- Reads all arguments of a command. -/
def readAll (specs : List OptionSpec) (words : Words) (arguments : List String) :
    Except UsageError Reading := do
  (← read specs words start arguments).1.settle

/-- The values of an option. -/
def valuesOf (r : Reading) (name : String) : List String := (r.given.get? name).getD []

/-- The value of an option. -/
def value? (r : Reading) (name : String) : Option String := (r.valuesOf name).head?

/-- Whether an option was given. -/
def has (r : Reading) (name : String) : Bool := r.given.contains name

end Reading

/-- Where the values to encode come from. -/
inductive Source where
  | inline (text : String)
  /-- A file, or standard input if there is none; each line is a value if `lines` is set. -/
  | file (path : Option String) (lines : Bool)
deriving DecidableEq

/-- What is to be done with compiled schemas. -/
inductive Action where
  | types
  | encode (type : String) (source : Source)
  | decode (type : String) (inputs : List String)
deriving DecidableEq

/-- What the arguments ask for. -/
structure Request where
  /-- The file with compiler options. -/
  config : Option String
  /-- The schema files, or patterns of them. -/
  schemas : List String
  action : Action
deriving DecidableEq

namespace Arguments

/-- The options that every command takes. -/
def commonOptions : List OptionSpec :=
  [⟨"config", none, .one, false⟩, ⟨"help", some 'h', .none, true⟩]

/-- The option for schema files. -/
def schemaOption : OptionSpec := ⟨"schema", some 's', .many, true⟩

/-- The option for the type. -/
def typeOption : OptionSpec := ⟨"type", some 't', .one, true⟩

/-- The options of listing. -/
def typesOptions : List OptionSpec := schemaOption :: commonOptions

/-- The options of decoding. -/
def decodeOptions : List OptionSpec := schemaOption :: typeOption :: commonOptions

/-- The options of encoding. -/
def encodeOptions : List OptionSpec :=
  [⟨"input", some 'i', .one, false⟩, ⟨"ndjson", none, .none, true⟩, ⟨"value", none, .one, true⟩] ++
    decodeOptions

/-- The options have to be there. -/
def require (r : Reading) (names : List String) : Except UsageError Unit :=
  if names.all r.has then .ok () else .error .missingRequired

/-- The type that is asked for. -/
def typeText (r : Reading) : String := (r.value? "type").getD ""

/-- The arguments of listing. -/
def typesAction (arguments : List String) : Except UsageError (Reading × Action) := do
  let r ← Reading.readAll typesOptions .refused arguments
  require r ["schema"]
  return (r, .types)

/-- The arguments of encoding. -/
def encodeAction (arguments : List String) : Except UsageError (Reading × Action) := do
  let r ← Reading.readAll encodeOptions .refused arguments
  if r.has "value" && (r.has "input" || r.has "ndjson") then .error .conflict
  require r ["schema", "type"]
  let source := match r.value? "value" with
    | some text => .inline text
    | none => .file ((r.value? "input").filter (· ≠ "-")) (r.has "ndjson")
  return (r, .encode (typeText r) source)

/-- The arguments of decoding. -/
def decodeAction (arguments : List String) : Except UsageError (Reading × Action) := do
  let r ← Reading.readAll decodeOptions .collected arguments
  require r ["schema", "type"]
  if r.words.isEmpty then .error .missingRequired
  return (r, .decode (typeText r) r.words.reverse)

/-- The names of the commands. -/
def commands : List String := ["types", "encode", "decode", "help"]

/-- What the arguments of a command ask for. -/
def action (command : String) (arguments : List String) :
    Except UsageError (Reading × Action) :=
  match command with
  | "types" => typesAction arguments
  | "encode" => encodeAction arguments
  | "decode" => decodeAction arguments
  | "help" =>
    match arguments with
    | [] => .error .help
    | [topic] => .error (if commands.contains topic then .help else .invalidSubcommand)
    | _ => .error .invalidSubcommand
  | _ => .error .invalidSubcommand

/-- What the arguments ask for. The arguments of a command are looked at before an option that is
pending in front of it. -/
def parse (arguments : List String) : Except UsageError Request := do
  match ← Reading.read commonOptions (.command commands) .start arguments with
  | (top, []) =>
    let top ← top.settle
    .error (if top.given.isEmpty then .nothingGiven else .missingSubcommand)
  | (top, command :: arguments) =>
    let (r, action) ← action command arguments
    let top ← top.settle
    return ⟨(r.value? "config").or (top.value? "config"), r.valuesOf "schema", action⟩

end Arguments

end Wireform.CommandLine
