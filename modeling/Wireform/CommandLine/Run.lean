import Wireform.CommandLine.Arguments
import Wireform.CommandLine.Pattern
import Wireform.Schema
import Wireform.CompileError.Message

/-!
# Running commands

A run reads schema files, compiles them together and lists, encodes or decodes. It
gives the lines to print and, if it fails, why.

* `run`: a request.
-/

namespace Wireform.CommandLine

/-- Why a file cannot be read. -/
inductive FileFault where
  | notFound
  /-- A name on the way, or before a slash at the end, is that of a file. -/
  | notFolder
  | isFolder
  | longName
  | nullCharacter
  | other (text : String)

/-- The wording of a fault. -/
def FileFault.text : FileFault → String
  | .notFound => "No such file or directory (os error 2)"
  | .notFolder => "Not a directory (os error 20)"
  | .isFolder => "Is a directory (os error 21)"
  | .longName => "File name too long (os error 36)"
  | .nullCharacter => "file name contained an unexpected NUL byte"
  | .other text => text

/-- What a run can read. -/
structure Surroundings (m : Type → Type) extends Pattern.Listing m where
  /-- The bytes of a file. -/
  file : String → m (Except FileFault (List UInt8))
  /-- The bytes of standard input. -/
  input : m (List UInt8)

/-- Why a run fails. -/
inductive Failure where
  | readConfig (fault : FileFault)
  | badConfig (path : String)
  | badPattern (position : Nat) (fault : PatternFault)
  | noMatch (pattern : String)
  | readSchema (path : String)
  | loadSchema (path : String) (error : LoadError)
  | compile (error : CompileError)
  | parseInline
  | readInput (path : String)
  | readStandardInput
  | parseInput
  | parseLine (number : Nat)
  | encode (index : Nat) (ident : String) (failure : CodecFailure)
  | badHex (text : String)
  | decode (text ident : String) (failure : CodecFailure)
  /-- A bound on the work was too small. -/
  | outOfFuel

/-- The wording of a failure. -/
def Failure.message : Failure → String
  | .readConfig fault => fault.text
  | .badConfig path => "invalid config " ++ path
  | .badPattern position fault =>
    "Pattern syntax error near position " ++ toString position ++ ": " ++ fault.text
  | .noMatch pattern => "glob pattern matched no files: " ++ pattern
  | .readSchema path => "failed to read schema file " ++ path
  | .loadSchema path _ => "failed to load schema file " ++ path
  | .compile error => error.message
  | .parseInline => "failed to parse --value"
  | .readInput path => "failed to read input file " ++ path
  | .readStandardInput => "stream did not contain valid UTF-8"
  | .parseInput => "failed to parse JSON input"
  | .parseLine number => "failed to parse NDJSON line " ++ toString number
  | .encode index ident _ => "failed to encode value #" ++ toString index ++ " as " ++ ident
  | .badHex text => "invalid hex input " ++ Text.quoted text
  | .decode text ident _ => "failed to decode " ++ text ++ " as " ++ ident
  | .outOfFuel => "out of fuel"

/-- The lines of a run, and why it failed if it did. -/
structure Outcome where
  lines : List String
  failure : Option Failure

/-- The failure of a compilation. -/
def ofStop : Stop CompileError → Failure
  | .failure error => .compile error
  | .outOfFuel => .outOfFuel

variable {m : Type → Type} [Monad m] (surroundings : Surroundings m)

/-- A step of a run that can fail. -/
abbrev Step (m : Type → Type) := ExceptT Failure m

/-- A result that may be missing. -/
def orElse {α : Type} (failure : Failure) : Option α → Step m α
  | some value => pure value
  | none => throw failure

/-- The bytes of a file. -/
def readFile (failure : FileFault → Failure) (path : String) : Step m (List UInt8) := do
  match ← surroundings.file path with
  | .ok bytes => return bytes
  | .error fault => throw (failure fault)

/-- The options of a file, or the defaults. -/
def readOptions : Option String → Step m Options
  | none => pure {}
  | some path => do
    let bytes ← readFile surroundings .readConfig path
    let text ← orElse .readStandardInput (Text.ofUtf8? bytes)
    orElse (.badConfig path) (Options.ofToml? text)

/-- The paths that a name or a pattern stands for. -/
def resolvePattern (text : String) : Step m (List String) := do
  if Pattern.isPattern text then
    match ← ExceptT.lift (Pattern.expand surroundings.toListing text) with
    | .error (position, fault) => throw (.badPattern position fault)
    | .ok [] => throw (.noMatch text)
    | .ok paths => return paths
  else return [text]

/-- The definitions of a file. -/
def readDefinitions (path : String) : Step m (List (String × Definition)) := do
  let bytes ← readFile surroundings (fun _ => .readSchema path) path
  match loadDocument (documentChars bytes) with
  | .ok definitions => return definitions
  | .error error => throw (.loadSchema path error)

/-- The schema of all definitions in some files. -/
def compileFiles (patterns : List String) (options : Options) : Step m Schema := do
  let paths ← patterns.mapM (resolvePattern surroundings)
  let definitions ← paths.flatten.mapM (readDefinitions surroundings)
  match Schema.compile definitions.flatten options with
  | .ok schema => return schema
  | .error stop => throw (ofStop stop)

/-- The type that a text refers to. -/
def resolveText (schema : Schema) (text : String) : Step m TypeCodec :=
  match (schema.resolve text).1 with
  | .ok codec => pure codec
  | .error stop => throw (ofStop stop)

/-- The lines of a text without their ends; what follows the last line end counts if it is there. -/
def linesOf (text : String) : List String :=
  let lines := (text.toList.splitOn '\n').map fun line =>
    match line.reverse with
    | '\r' :: rest => rest.reverse
    | _ => line
  let lines := if text.toList.getLast? = some '\n' ∨ text.isEmpty then lines.dropLast else lines
  lines.map String.ofList

/-- The values of the lines that are not blank. -/
def parseLines (text : String) : Step m (List Json) :=
  ((linesOf text).zipIdx.filter fun (line, _) => !(Text.trim line.toList).isEmpty).mapM
    fun (line, index) => orElse (.parseLine (index + 1)) (Json.parse? line)

/-- The values to encode. -/
def readValues : Source → Step m (List Json)
  | .inline text => do return [← orElse .parseInline (Json.parse? text)]
  | .file path lines => do
    let text ← match path with
      | some path => do
        let bytes ← readFile surroundings (fun _ => .readInput path) path
        orElse (.readInput path) (Text.ofUtf8? bytes)
      | none => do orElse .readStandardInput (Text.ofUtf8? (← surroundings.input))
    if lines then parseLines text
    else return [← orElse .parseInput (Json.parse? text)]

/-- The line of an encoded value. -/
def encodeLine (codec : TypeCodec) (index : Nat) (value : Json) : Except Failure String :=
  match codec.encode value with
  | .ok bytes => .ok (Text.hex bytes)
  | .error (.failure failure) => .error (.encode index codec.ident failure)
  | .error .outOfFuel => .error .outOfFuel

/-- The line of a decoded value. -/
def decodeLine (codec : TypeCodec) (text : String) : Except Failure String :=
  match Text.ofHex? (String.ofList (Text.trim text.toList)) with
  | none => .error (.badHex text)
  | some bytes =>
    match codec.decode bytes with
    | .ok value => .ok value.text
    | .error (.failure failure) => .error (.decode text codec.ident failure)
    | .error .outOfFuel => .error .outOfFuel

/-- Lines one after the other, up to the first failure. -/
def decodeLines (codec : TypeCodec) : List String → Outcome
  | [] => ⟨[], none⟩
  | text :: rest =>
    match decodeLine codec text with
    | .ok line =>
      let outcome := decodeLines codec rest
      ⟨line :: outcome.lines, outcome.failure⟩
    | .error failure => ⟨[], some failure⟩

/-- The line of a type in a listing. -/
def typeLine (name : String) (codec : TypeCodec) : String :=
  name ++ "\t" ++ codec.ident ++ "\t" ++ codec.maxSize.text

/-- All of a run; failures before the first line are exceptions. -/
def runSteps (request : Request) : Step m Outcome := do
  let options ← readOptions surroundings request.config
  let schema ← compileFiles surroundings request.schemas options
  match request.action with
  | .types => return ⟨schema.types.map fun (name, codec) => typeLine name codec, none⟩
  | .encode type source =>
    let codec ← resolveText schema type
    let values ← readValues surroundings source
    match values.zipIdx.mapM fun (value, index) => encodeLine codec index value with
    | .ok lines => return ⟨lines, none⟩
    | .error failure => throw failure
  | .decode type inputs => return decodeLines (← resolveText schema type) inputs

/-- Runs a request. -/
def run (request : Request) : m Outcome := do
  match ← (runSteps surroundings request).run with
  | .ok outcome => return outcome
  | .error failure => return ⟨[], some failure⟩

end Wireform.CommandLine
