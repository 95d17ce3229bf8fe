import Wireform.CommandLine.Run

/-!
# The program

Reads files and standard input, prints the lines of a run on standard output and
failures on standard error. A failed run ends with 1, wrong arguments with 2.
-/

namespace Wireform.CommandLine

/-- What there is at a path on disk. -/
def diskKind (path : String) : IO (Option Pattern.EntryKind) := do
  try
    let place ← IO.FS.realPath path
    return some (if ← place.isDir then .folder else .file)
  catch _ => return none

/-- The names in a folder on disk; none if it cannot be read. -/
def diskNames (path : String) : IO (List String) := do
  try
    let place ← IO.FS.realPath path
    return (← place.readDir).toList.map fun entry => entry.fileName
  catch _ => return []

/-- The bytes of a file on disk. -/
def diskFile (path : String) : IO (Except FileFault (List UInt8)) := do
  try return .ok (← IO.FS.readBinFile path).data.toList
  catch
    | .noFileOrDirectory .. => return .error .notFound
    | fault => return .error (.other (toString fault))

/-- The disk and standard input. -/
def disk : Surroundings IO where
  kind := diskKind
  names := diskNames
  file := diskFile
  input := do return (← (← IO.getStdin).readBinToEnd).data.toList

/-- A failure with the reason behind it. -/
def Failure.report (failure : Failure) : String :=
  match failure with
  | .encode _ _ reason | .decode _ _ reason =>
    let place := if reason.path.isEmpty then "" else "at " ++ reason.pathText ++ ": "
    failure.message ++ ": " ++ place ++ reason.cause.message
  | .loadSchema _ (.fault place reason) =>
    failure.message ++ ": " ++ place.text ++ ": " ++ reason.message
  | _ => failure.message

/-- How the program is called. -/
def usage : String :=
  "Usage: wireform [--config FILE] types -s FILE...\n" ++
  "       wireform [--config FILE] encode -s FILE... -t TYPE\n" ++
  "                [-i FILE [--ndjson] | --value JSON]\n" ++
  "       wireform [--config FILE] decode -s FILE... -t TYPE HEX...\n"

/-- Runs the command that arguments ask for, and gives the exit code. -/
def execute (arguments : List String) : IO UInt32 := do
  match Arguments.parse arguments with
  | .error .help =>
    IO.print usage
    return 0
  | .error _ =>
    IO.eprint usage
    return 2
  | .ok request =>
    let outcome ← run disk request
    outcome.lines.forM fun line => IO.println line
    match outcome.failure with
    | none => return 0
    | some failure =>
      IO.eprintln ("error: " ++ failure.report)
      return 1

end Wireform.CommandLine

/-- The program. -/
def main (arguments : List String) : IO UInt32 := Wireform.CommandLine.execute arguments
