import Wireform.CommandLine.Run

/-!
# Files in memory

A folder of files that is given as a list, for runs without a file system. A path is
followed from the folder name by name, and every name on the way has to be there.
What lies around the folder is not known, but is there.

* `Folder.follow`: where a path leads.
* `Folder.surroundings`: what a run in the folder can read.
-/

namespace Wireform.CommandLine

/-- Files by their paths inside a folder. -/
abbrev Folder := Assoc (List UInt8)

namespace Folder

/-- Where a path leads. -/
inductive Place where
  /-- A folder that is not inside the given one. -/
  | outside
  /-- A file or a folder inside the given one, by the names that lead to it. -/
  | inside (names : List String)

/-- The names on a path inside the folder. -/
def names (path : String) : List String :=
  ((Pattern.splitPath path.toList).map String.ofList).filter fun name => name ≠ "" ∧ name ≠ "."

/-- The bytes of the file with given names. -/
def file? (folder : Folder) (wanted : List String) : Option (List UInt8) :=
  (folder.find? fun entry => names entry.1 = wanted).map Prod.snd

/-- The names in the folder with given names. -/
def entries (folder : Folder) (wanted : List String) : List String :=
  (folder.filterMap fun entry =>
    if wanted.isPrefixOf (names entry.1) then (names entry.1)[wanted.length]? else none).eraseDups

/-- One name further. -/
def step (folder : Folder) (place : Place) (name : String) : Except FileFault Place :=
  match place with
  | .outside => if name = "" ∨ name = "." ∨ name = ".." then .ok .outside else .error .notFound
  | .inside here =>
    if (folder.file? here).isSome then .error .notFolder
    else if name = "" ∨ name = "." then .ok place
    else if name = ".." then .ok (if here.isEmpty then .outside else .inside here.dropLast)
    else if 255 < name.utf8ByteSize then .error .longName
    else if (folder.entries here).contains name then .ok (.inside (here ++ [name]))
    else .error .notFound

/-- Where a path leads. -/
def follow (folder : Folder) (path : String) : Except FileFault Place :=
  if path.toList.contains '\x00' then .error .nullCharacter
  else if path.isEmpty then .error .notFound
  else if 4095 < path.utf8ByteSize then .error .longName
  else
    let start := if path.toList.head? = some '/' then .outside else .inside []
    ((Pattern.splitPath path.toList).map String.ofList).foldlM folder.step start

/-- What there is at a path. -/
def kind? (folder : Folder) (path : String) : Option Pattern.EntryKind :=
  match folder.follow path with
  | .ok (.inside here) => some (if (folder.file? here).isSome then .file else .folder)
  | .ok .outside => some .folder
  | .error _ => none

/-- The names in the folder at a path. -/
def namesAt (folder : Folder) (path : String) : List String :=
  match folder.follow path with
  | .ok (.inside here) => folder.entries here
  | _ => []

/-- The bytes of the file at a path. -/
def read (folder : Folder) (path : String) : Except FileFault (List UInt8) := do
  match ← folder.follow path with
  | .outside => .error .isFolder
  | .inside here =>
    match folder.file? here with
    | some bytes => .ok bytes
    | none => .error .isFolder

/-- What a run in the folder can read. -/
def surroundings (folder : Folder) (input : List UInt8) : Surroundings Id where
  kind path := folder.kind? path
  names path := folder.namesAt path
  file path := folder.read path
  input := input

end Folder

end Wireform.CommandLine
