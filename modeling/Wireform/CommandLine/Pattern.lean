/-!
# File name patterns

A star stands for any characters, a question mark for one, and brackets for one of
some characters or, after an exclamation mark, for any other one. Two stars alone
between slashes stand for any folders.

* `Pattern.parse`: the parts of a pattern between slashes.
* `Pattern.expand`: the files that match.
-/

namespace Wireform.CommandLine

/-- What is wrong with a pattern. -/
inductive PatternFault where
  | wildcards
  | recursiveWildcards
  | invalidRange
deriving DecidableEq

/-- The wording of a fault. -/
def PatternFault.text : PatternFault → String
  | .wildcards => "wildcards are either regular \x60*\x60 or recursive \x60**\x60"
  | .recursiveWildcards => "recursive wildcards must form a single path component"
  | .invalidRange => "invalid range pattern"

namespace Pattern

/-- One piece of a pattern. -/
inductive Piece where
  | char (c : Char)
  | any
  | sequence
  /-- One character in, or not in, some ranges. -/
  | range (excluded : Bool) (ranges : List (Char × Char))
  /-- Any folders, one inside the other. -/
  | folders
deriving DecidableEq

/-- A part of a pattern between slashes. -/
inductive Part where
  | literal (name : String)
  | wild (pieces : List Piece)
  | folders
deriving DecidableEq

/-- Whether a text has characters that make it a pattern. -/
def isPattern (text : String) : Bool :=
  text.toList.any fun c => c = '*' || c = '?' || c = '[' || c = '\x7b'

/-- The ranges inside brackets. -/
def ranges : List Char → List (Char × Char)
  | a :: '-' :: b :: rest => (a, b) :: ranges rest
  | a :: rest => (a, a) :: ranges rest
  | [] => []

/-- A piece in brackets after the opening one, and the rest. The first character inside is never the
closing bracket. -/
def bracket? (s : List Char) : Option (Piece × List Char) :=
  let (excluded, s) := match s with
    | '!' :: s => (true, s)
    | s => (false, s)
  match s with
  | [] => none
  | first :: rest =>
    match rest.span (· ≠ ']') with
    | (inner, ']' :: rest) => some (.range excluded (ranges (first :: inner)), rest)
    | _ => none

/-- The pieces of a pattern from a position on, or the first fault and its position. The bound
counts pieces. -/
def scan : Nat → Nat → Option Char → List Char → Except (Nat × PatternFault) (List Piece)
  | 0, _, _, _ => .ok []
  | _ + 1, _, _, [] => .ok []
  | _ + 1, position, _, '*' :: '*' :: '*' :: _ => .error (position + 2, .wildcards)
  | bound + 1, position, before, '*' :: '*' :: rest => do
    unless before.all (· = '/') do .error (position - 1, .recursiveWildcards)
    match rest with
    | [] => return [.folders]
    | '/' :: rest => return .folders :: (← scan bound (position + 3) (some '/') rest)
    | _ => .error (position + 2, .recursiveWildcards)
  | bound + 1, position, _, '[' :: rest => do
    let some (piece, after) := bracket? rest | .error (position, .invalidRange)
    return piece ::
      (← scan bound (position + 1 + (rest.length - after.length)) (some ']') after)
  | bound + 1, position, _, c :: rest => do
    let piece := if c = '*' then .sequence else if c = '?' then .any else .char c
    return piece :: (← scan bound (position + 1) (some c) rest)

/-- The pieces of a pattern, or the first fault and its position. -/
def pieces (s : List Char) : Except (Nat × PatternFault) (List Piece) :=
  scan (s.length + 1) 0 none s

/-- The character that a piece stands for if it stands for one only. -/
def Piece.char? : Piece → Option Char
  | .char c => some c
  | _ => none

/-- A part of a pattern. -/
def Part.ofPieces (parsed : List Piece) : Part :=
  if parsed = [.folders] then .folders
  else match parsed.mapM Piece.char? with
    | some name => .literal (String.ofList name)
    | none => .wild parsed

/-- The texts between slashes. -/
def splitPath (s : List Char) : List (List Char) := s.splitOn '/'

/-- The texts between the slashes of a pattern: a slash in front or at the end has none beside
it. -/
def splitPattern (s : List Char) : List (List Char) :=
  let s := match s with
    | '/' :: rest => rest
    | s => s
  let parts := splitPath s
  if parts.getLast? = some [] then parts.dropLast else parts

/-- Any folders inside any folders are any folders. -/
def mergeFolders : List Part → List Part
  | .folders :: rest =>
    match mergeFolders rest with
    | .folders :: rest => .folders :: rest
    | rest => .folders :: rest
  | part :: rest => part :: mergeFolders rest
  | [] => []

/-- The parts of a pattern, or the first fault and its position. -/
def parse (text : String) : Except (Nat × PatternFault) (List Part) := do
  let _ ← pieces text.toList
  let parts ← (splitPattern text.toList).mapM fun part => Part.ofPieces <$> pieces part
  return mergeFolders parts

/-- Whether a character fits ranges. -/
def inRanges (rs : List (Char × Char)) (c : Char) : Bool :=
  rs.any fun (a, b) => a ≤ c && c ≤ b

/-- Whether some end of a text has a property. -/
def someEnd (p : List Char → Bool) : List Char → Bool
  | [] => p []
  | c :: s => p (c :: s) || someEnd p s

/-- Whether pieces match a name. -/
def matchPieces : List Piece → List Char → Bool
  | [], s => s.isEmpty
  | .sequence :: rest, s => someEnd (matchPieces rest) s
  | .folders :: rest, s => someEnd (matchPieces rest) s
  | .any :: rest, _ :: s => matchPieces rest s
  | .char c :: rest, d :: s => c = d && matchPieces rest s
  | .range excluded rs :: rest, d :: s => (inRanges rs d != excluded) && matchPieces rest s
  | _ :: _, [] => false

/-- Whether a part matches a name. -/
def Part.matches (part : Part) (name : String) : Bool :=
  match part with
  | .literal text => text = name
  | .wild parsed => matchPieces parsed name.toList
  | .folders => true

/-- A file or a folder. -/
inductive EntryKind where
  | file | folder
deriving DecidableEq

/-- What is known about files. -/
structure Listing (m : Type → Type) where
  /-- What there is at a path. -/
  kind : String → m (Option EntryKind)
  /-- The names in a folder. -/
  names : String → m (List String)

/-- Whether a path is the present folder, however written. -/
def isPresent (path : String) : Bool :=
  match splitPath path.toList with
  | ['.'] :: rest => rest.all fun part => part = [] || part = ['.']
  | _ => false

/-- The path of a name in a folder. -/
def under (folder name : String) : String :=
  if folder.isEmpty || folder.toList.getLast? = some '/' then folder ++ name
  else folder ++ "/" ++ name

/-- The path of a name in a folder; the present folder is not written. -/
def join (folder name : String) : String := if isPresent folder then name else under folder name

/-- What a pattern's own ending asks of a match. -/
def accepts (onlyFolders : Bool) (kind : Option EntryKind) : Bool :=
  if onlyFolders then kind = some .folder else kind.isSome

/-- The names of a folder itself and of the folder around it, the latter in front. They are in no
listing, and match only a part that starts with a point. -/
def Part.specials : Part → List String
  | .wild (.char '.' :: pieces) =>
    ["..", "."].filter fun name => matchPieces (.char '.' :: pieces) name.toList
  | _ => []

variable {m : Type → Type} [Monad m] (listing : Listing m) (onlyFolders : Bool)

/-- The names in a folder, in alphabetical order. -/
def sortedNames (folder : String) : m (List String) := do
  return (← listing.names folder).mergeSort fun a b => decide (a ≤ b)

/-- The paths inside a folder that match parts, given how deep to look. A name without wildcards is
looked up and not searched for. -/
def expandWithin : Nat → List Part → String → m (List String)
  | 0, _, _ => pure []
  | _ + 1, [], _ => pure []
  | depth + 1, .literal name :: rest, folder => do
    let path := join folder name
    let kind ← listing.kind path
    let isThere : Bool ←
      if name = "." ∨ name = ".." then do pure (decide ((← listing.kind folder) = some .folder))
      else pure kind.isSome
    if !isThere then return []
    if rest.isEmpty then return if accepts onlyFolders kind then [path] else []
    expandWithin depth rest path
  | depth + 1, .folders :: rest, folder => do
    let found ← (← sortedNames listing folder).mapM fun name => do
      let path := join folder name
      let kind ← listing.kind path
      let here ← match rest with
        | [] => pure (if kind = some .folder then [path] else [])
        | first :: rest =>
          if !first.matches name then pure []
          else if rest.isEmpty then pure (if accepts onlyFolders kind then [path] else [])
          else if kind = some .folder then expandWithin depth rest path
          else pure []
      let inside ←
        if kind = some .folder then expandWithin depth (.folders :: rest) path else pure []
      return here ++ inside
    return found.flatten
  | depth + 1, part :: rest, folder => do
    if (← listing.kind folder) ≠ some .folder then return []
    let special ← part.specials.mapM fun name => do
      let path := under folder name
      if rest.isEmpty then return [path] else expandWithin depth rest path
    let found ← (← sortedNames listing folder).mapM fun name => do
      let path := join folder name
      let kind ← listing.kind path
      if !part.matches name then return []
      else if rest.isEmpty then return if accepts onlyFolders kind then [path] else []
      else if kind = some .folder then expandWithin depth rest path
      else return []
    return special.flatten ++ found.flatten

/-- How deep folders are looked into beyond the parts of a pattern. -/
def maxFolders : Nat := 256

/-- The paths that match a pattern, or the pattern's fault. Matches in one folder come in
alphabetical order, the folder around it and the folder itself first. A slash at the end asks for
folders. -/
def expand (pattern : String) : m (Except (Nat × PatternFault) (List String)) := do
  match parse pattern with
  | .error fault => return .error fault
  | .ok parts =>
    let start := if pattern.toList.head? = some '/' then "/" else "."
    let onlyFolders := pattern.toList.getLast? = some '/'
    return .ok (← expandWithin listing onlyFolders (parts.length + maxFolders) parts start)

end Pattern

end Wireform.CommandLine
