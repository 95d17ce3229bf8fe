import Wireform.Toml
import Wireform.Json.Reader
import Wireform.Calendar.Timestamp

/-!
# Reading TOML

A settings file is a sequence of lines: settings `key = value`, table headers,
blank lines and comments.

* `Toml.parse?`: the root table of a file.
-/

namespace Wireform.Toml

/-- Drops spaces and tabs in front. -/
def skipSpaces (s : List Char) : List Char := s.dropWhile fun c => c = ' ' || c = '\t'

/-- Whether a character may stand in a comment or a string. -/
def isPlain (c : Char) : Bool := c = '\t' || (32 ≤ c.toNat && c.toNat ≠ 127)

/-- The rest after the end of a line. -/
def newline? : List Char → Option (List Char)
  | '\n' :: rest => some rest
  | '\r' :: '\n' :: rest => some rest
  | _ => none

/-- Drops a comment, if there is one. -/
def skipComment (s : List Char) : List Char :=
  match s with
  | '#' :: rest => rest.dropWhile isPlain
  | _ => s

/-- Drops white space, line ends and comments. The bound counts lines. -/
def skipLines : Nat → List Char → List Char
  | 0, s => s
  | bound + 1, s =>
    let rest := skipComment (skipSpaces s)
    match newline? rest with
    | some rest => skipLines bound rest
    | none => rest

/-- Drops spaces, tabs and line ends. The bound counts lines. -/
def skipBlankLines : Nat → List Char → List Char
  | 0, s => s
  | bound + 1, s =>
    let rest := skipSpaces s
    match newline? rest with
    | some rest => skipBlankLines bound rest
    | none => rest

/-- Whether a character can stand in a bare key. -/
def isBareKey (c : Char) : Bool := c.isAlphanum || c = '_' || c = '-'

/-- A character that is given by `count` hexadecimal digits. -/
def hexChar? (count : Nat) (s : List Char) : Option (Char × List Char) :=
  let digits := s.take count
  if digits.length = count ∧ digits.all (fun c => (Text.hexDigitValue? c).isSome) then
    let n := digits.foldl (fun value c => value * 16 + (Text.hexDigitValue? c).getD 0) 0
    if n.isValidChar then some (Char.ofNat n, s.drop count) else none
  else none

/-- What follows a backslash. -/
def escape? : List Char → Option (Char × List Char)
  | '"' :: rest => some ('"', rest)
  | '\\' :: rest => some ('\\', rest)
  | 'b' :: rest => some ('\x08', rest)
  | 'f' :: rest => some ('\x0c', rest)
  | 'n' :: rest => some ('\n', rest)
  | 'r' :: rest => some ('\r', rest)
  | 't' :: rest => some ('\t', rest)
  | 'u' :: rest => hexChar? 4 rest
  | 'U' :: rest => hexChar? 8 rest
  | _ => none

/-- A basic string after its opening quote. The bound counts characters. -/
def basic? : Nat → List Char → Option (List Char × List Char)
  | 0, _ => none
  | _ + 1, [] => none
  | _ + 1, '"' :: rest => some ([], rest)
  | bound + 1, '\\' :: rest => do
    let (c, rest) ← escape? rest
    let (body, rest) ← basic? bound rest
    return (c :: body, rest)
  | bound + 1, c :: rest =>
    if isPlain c then (basic? bound rest).map fun (body, rest) => (c :: body, rest) else none

/-- A literal string after its opening quote. -/
def literal? : List Char → Option (List Char × List Char)
  | [] => none
  | c :: rest =>
    if c = '\x27' then some ([], rest)
    else if isPlain c then (literal? rest).map fun (body, rest) => (c :: body, rest) else none

/-- The quotes that end a string of several lines: up to two of them belong to it. -/
def closing? (quote : Char) (s : List Char) : Option (List Char × List Char) :=
  let quotes := s.takeWhile (· = quote)
  if quotes.length < 3 then none
  else
    let kept := min (quotes.length - 3) 2
    some (s.take kept, s.drop (kept + 3))

/-- A basic string of several lines after its opening quotes. The bound counts characters. -/
def longBasic? : Nat → List Char → Option (List Char × List Char)
  | 0, _ => none
  | bound + 1, s =>
    match closing? '"' s with
    | some found => some found
    | none =>
      match s with
      | [] => none
      | '\\' :: rest =>
        match newline? (skipSpaces rest) with
        | some rest => longBasic? bound (skipBlankLines rest.length rest)
        | none => do
          let (c, rest) ← escape? rest
          let (body, rest) ← longBasic? bound rest
          return (c :: body, rest)
      | c :: rest =>
        match newline? s with
        | some rest => (longBasic? bound rest).map fun (body, rest) => ('\n' :: body, rest)
        | none =>
          if isPlain c then (longBasic? bound rest).map fun (body, rest) => (c :: body, rest)
          else none

/-- A literal string of several lines after its opening quotes. The bound counts characters. -/
def longLiteral? : Nat → List Char → Option (List Char × List Char)
  | 0, _ => none
  | bound + 1, s =>
    match closing? '\x27' s with
    | some found => some found
    | none =>
      match s with
      | [] => none
      | c :: rest =>
        match newline? s with
        | some rest => (longLiteral? bound rest).map fun (body, rest) => ('\n' :: body, rest)
        | none =>
          if isPlain c then (longLiteral? bound rest).map fun (body, rest) => (c :: body, rest)
          else none

/-- A line end right after the opening quotes does not count. -/
def afterOpening (s : List Char) : List Char := (newline? s).getD s

/-- A string, of one line or of several. -/
def string? (s : List Char) : Option (String × List Char) :=
  let found :=
    match s with
    | '"' :: '"' :: '"' :: rest => longBasic? s.length (afterOpening rest)
    | '"' :: rest => basic? s.length rest
    | '\x27' :: '\x27' :: '\x27' :: rest => longLiteral? s.length (afterOpening rest)
    | '\x27' :: rest => literal? rest
    | _ => none
  found.map fun (body, rest) => (String.ofList body, rest)

/-- One part of a key. -/
def keyPart? (s : List Char) : Option (String × List Char) :=
  match s with
  | '"' :: rest => (basic? s.length rest).map fun (body, rest) => (String.ofList body, rest)
  | '\x27' :: rest => (literal? rest).map fun (body, rest) => (String.ofList body, rest)
  | _ =>
    match s.span isBareKey with
    | ([], _) => none
    | (body, rest) => some (String.ofList body, rest)

/-- Values lie in fewer arrays and tables than this, and a key has fewer parts. -/
def depthLimit : Nat := 80

/-- The parts of a dotted key. The bound counts parts. -/
def keyParts? : Nat → List Char → Option (List String × List Char)
  | 0, _ => none
  | bound + 1, s => do
    let (part, rest) ← keyPart? (skipSpaces s)
    match skipSpaces rest with
    | '.' :: rest =>
      let (parts, rest) ← keyParts? bound rest
      return (part :: parts, rest)
    | rest => return ([part], rest)

/-- A dotted key. -/
def key? : List Char → Option (List String × List Char) := keyParts? (depthLimit - 1)

/-- Digits with single underscores between them. -/
def groupedDigits? (isDigit : Char → Bool) : List Char → Option (List Char)
  | [] => none
  | [c] => if isDigit c then some [c] else none
  | c :: '_' :: rest => if isDigit c then (groupedDigits? isDigit rest).map (c :: ·) else none
  | c :: rest => if isDigit c then (groupedDigits? isDigit rest).map (c :: ·) else none

/-- The number that digits of a base spell. -/
def ofBase? (base : Nat) (s : List Char) : Option Int := do
  let digits ← groupedDigits? (fun c => (Text.hexDigitValue? c).any (· < base)) s
  let value : Nat := digits.foldl (fun value c => value * base + (Text.hexDigitValue? c).getD 0) 0
  return value

/-- Decimal digits without a zero in front of another digit. -/
def wholeDigits? (s : List Char) : Option (List Char) :=
  match groupedDigits? Char.isDigit s with
  | some ['0'] => some ['0']
  | some ('0' :: _) => none
  | found => found

/-- An integer. -/
def integer? (s : List Char) : Option Int :=
  match s with
  | '0' :: 'x' :: rest => ofBase? 16 rest
  | '0' :: 'o' :: rest => ofBase? 8 rest
  | '0' :: 'b' :: rest => ofBase? 2 rest
  | '-' :: rest => (wholeDigits? rest).map fun digits => -(ofDigits digits : Int)
  | '+' :: rest => (wholeDigits? rest).map fun digits => (ofDigits digits : Int)
  | _ => (wholeDigits? s).map fun digits => (ofDigits digits : Int)

/-- Whether a word has the form of a float in digits. -/
def isFloatForm (s : List Char) : Bool :=
  let body := match s with
    | '-' :: rest => rest
    | '+' :: rest => rest
    | rest => rest
  let (whole, rest) := body.span fun c => c.isDigit || c = '_'
  let (fraction, rest, pointed) := match rest with
    | '.' :: rest =>
      let (fraction, rest) := rest.span fun c => c.isDigit || c = '_'
      (fraction, rest, true)
    | _ => ([], rest, false)
  let (exponent, rest, marked) := match rest with
    | c :: rest =>
      if c = 'e' || c = 'E' then
        (match rest with
          | '-' :: rest => rest
          | '+' :: rest => rest
          | rest => rest, [], true)
      else ([], c :: rest, false)
    | [] => ([], [], false)
  (wholeDigits? whole).isSome && rest.isEmpty && (pointed || marked) &&
    (!pointed || (groupedDigits? Char.isDigit fraction).isSome) &&
    (!marked || (groupedDigits? Char.isDigit exponent).isSome)

/-- Whether a word spells a float. Digits may not spell a number that is too great, but one that is
too far below zero is infinite. -/
def isFloat (s : List Char) : Bool :=
  if isFloatForm s then
    Binary64.ofText? (String.ofList (s.filter (· ≠ '_'))) ≠ some (.infinity false)
  else
    let body := match s with
      | '-' :: rest => rest
      | '+' :: rest => rest
      | rest => rest
    body = "inf".toList || body = "nan".toList

/-- Whether a word spells a day. -/
def isDay (s : List Char) : Bool :=
  match Timestamp.day? s with
  | some (_, rest) => rest.isEmpty
  | none => false

/-- Whether a text is a time of day, possibly with an offset from universal time. -/
def isTime (offsetAllowed : Bool) (s : List Char) : Bool :=
  match Timestamp.time? s with
  | some (_, []) => true
  | some (_, rest) =>
    match Timestamp.offset? rest with
    | some (_, rest) => offsetAllowed && rest.isEmpty
    | none => false
  | none => false

/-- Whether a word spells a day, a time of day or both; only both together have an offset. -/
def isMoment (s : List Char) : Bool :=
  match Timestamp.day? s with
  | some (_, []) => true
  | some (_, rest) => (Timestamp.separator? rest).any (isTime true)
  | none => isTime false s

/-- A word: a boolean, a number, a date or a time. -/
def ofWord? (s : List Char) : Option Toml :=
  if s = "true".toList then some (.boolean true)
  else if s = "false".toList then some (.boolean false)
  else
    match integer? s with
    | some value =>
      if -9223372036854775808 ≤ value ∧ value < 9223372036854775808 then some (.integer value)
      else none
    | none => if isFloat s || isMoment s then some (.scalar (String.ofList s)) else none

/-- Whether a character can stand in a word. -/
def isWordChar (c : Char) : Bool :=
  c.isAlphanum || c = '_' || c = '+' || c = '-' || c = '.' || c = ':'

/-- The longest word in front, and the rest. A day takes the time of day behind a space. -/
def takeWord (s : List Char) : List Char × List Char :=
  let (word, rest) := s.span isWordChar
  match rest with
  | ' ' :: next :: more =>
    if isDay word && next.isDigit then
      let (time, rest) := (next :: more).span isWordChar
      (word ++ 'T' :: time, rest)
    else (word, rest)
  | rest => (word, rest)

/-- What reads one value from the front of a text. -/
abbrev ValueReader := List Char → Option (Toml × List Char)

/-- The items of an array after its opening bracket. The bound counts items. -/
def items? (item : ValueReader) : Nat → List Char → Option (List Toml × List Char)
  | 0, _ => none
  | bound + 1, s =>
    match skipLines s.length s with
    | ']' :: rest => some ([], rest)
    | s => do
      let (value, rest) ← item s
      match skipLines rest.length rest with
      | ',' :: rest =>
        let (values, rest) ← items? item bound rest
        return (value :: values, rest)
      | ']' :: rest => return ([value], rest)
      | _ => none

/-- One setting. -/
def setting? (item : ValueReader) (s : List Char) : Option (List String × Toml × List Char) := do
  let (key, rest) ← key? s
  let '=' :: rest := rest | none
  let (value, rest) ← item (skipSpaces rest)
  return (key, value, rest)

/-- The settings of an inline table after its opening brace. The bound counts settings. -/
def inlineSettings? (item : ValueReader) :
    Nat → Assoc Toml → List Char → Option (Assoc Toml × List Char)
  | 0, _, _ => none
  | bound + 1, entries, s => do
    let (key, value, rest) ← setting? item s
    let entries ← define? true key value entries
    match skipSpaces rest with
    | ',' :: rest => inlineSettings? item bound entries rest
    | '\x7d' :: rest => return (entries, rest)
    | _ => none

/-- A value that holds no other one. -/
def simple? : ValueReader
  | '"' :: rest => (string? ('"' :: rest)).map fun (text, rest) => (.string text, rest)
  | '\x27' :: rest => (string? ('\x27' :: rest)).map fun (text, rest) => (.string text, rest)
  | s =>
    let (word, rest) := takeWord s
    (ofWord? word).map fun value => (value, rest)

/-- One value, at most so deep. -/
def value? : Nat → ValueReader
  | 0, s => simple? s
  | depth + 1, s =>
    match s with
    | '[' :: rest => (items? (value? depth) s.length rest).map fun (items, rest) =>
      (.array items, rest)
    | '\x7b' :: rest =>
      match skipSpaces rest with
      | '\x7d' :: rest => some (.record [], rest)
      | rest => (inlineSettings? (value? depth) s.length [] rest).map fun (entries, rest) =>
        (.record entries, rest)
    | _ => simple? s

/-- The rest after a line has ended, with an optional comment. -/
def endLine? (s : List Char) : Option (List Char) :=
  match skipComment (skipSpaces s) with
  | [] => some []
  | rest => newline? rest

/-- A table header: its key, and whether it is a repeated one. -/
def header? (s : List Char) : Option (List String × Bool × List Char) := do
  match s with
  | '[' :: '[' :: rest =>
    let (key, rest) ← key? rest
    let ']' :: ']' :: rest := rest | none
    return (key, true, rest)
  | '[' :: rest =>
    let (key, rest) ← key? rest
    let ']' :: rest := rest | none
    return (key, false, rest)
  | _ => none

/-- The lines of a file, given the table that is open and all settings so far. The bound counts
lines. -/
def lines? : Nat → List String → Assoc Toml → List Char → Option (Assoc Toml)
  | bound, path, root, s =>
    match skipLines s.length s with
    | [] => some root
    | s =>
      match bound with
      | 0 => none
      | bound + 1 => do
        if s.head? = some '[' then
          let (key, isRepeated, rest) ← header? s
          let last ← key.getLast?
          let change := if isRepeated then openRepeated? last else openTable? last
          let root ← change? change key.dropLast root
          lines? bound key root (← endLine? rest)
        else
          let (key, value, rest) ← setting? (value? (depthLimit - 1)) s
          let root ← change? (define? true key value) path root
          lines? bound path root (← endLine? rest)

/-- The root table of a file. A byte-order mark in front is skipped. -/
def parse? (text : String) : Option (Assoc Toml) :=
  let s := match text.toList with
    | '\ufeff' :: rest => rest
    | s => s
  lines? s.length [] [] s

end Wireform.Toml
