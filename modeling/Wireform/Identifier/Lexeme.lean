import Wireform.Json.Reader
import Wireform.Decimal.Style
import Wireform.Text.Blank
import Wireform.Text.Quoted

/-!
# Lexemes of identifier text

Numbers (decimal, or hexadecimal after `0x`), strings as in JSON, words and marks,
with white space between them.

* `lex`: the lexemes of a text.
* `Lexeme.shown`: a lexeme as it stands in messages.
-/

namespace Wireform

/-- A lexeme of identifier text. -/
inductive Lexeme where
  | number (value : Binary64)
  | string (text : String)
  | word (text : String)
  | mark (symbol : Char)
deriving DecidableEq

/-- What is wrong with identifier text. -/
inductive SyntaxFault where
  /-- No lexeme starts here. -/
  | unexpectedInput (rest : String)
  /-- A hexadecimal number does not fit 64 bits. -/
  | hexTooLarge
  /-- A string lexeme is not a JSON string. -/
  | badString (fault : StringFault)
  /-- A certain mark has to stand here. -/
  | expectedMark (symbol : Char)
  /-- A word has to stand here. -/
  | expectedWord (found : Option Lexeme)
  /-- The text goes on after its end. -/
  | trailing (lexeme : Lexeme)
  /-- The bound on the number of steps was too small. It never is, so there are no words for it. -/
  | exhausted
deriving DecidableEq

namespace Lexeme

/-- A lexeme as it stands in messages. -/
def shown : Lexeme → String
  | .number value => "Num(" ++ Decimal.lexemeStyle.text value ++ ")"
  | .string text => "Str(" ++ Text.quoted text ++ ")"
  | .word text => "Ident(" ++ Text.quoted text ++ ")"
  | .mark symbol => "Punct('" ++ String.singleton symbol ++ "')"

end Lexeme

/-- The wording of a fault. -/
def SyntaxFault.message : SyntaxFault → String
  | .unexpectedInput rest => "unexpected input at " ++ Text.quoted rest
  | .hexTooLarge => "number too large to fit in target type"
  | .badString fault => fault.message
  | .expectedMark symbol => "expected '" ++ String.singleton symbol ++ "'"
  | .expectedWord (some found) => "expected identifier, found Some(" ++ found.shown ++ ")"
  | .expectedWord none => "expected identifier, found None"
  | .trailing lexeme => "unexpected trailing " ++ lexeme.shown
  | .exhausted => ""

namespace Lexeme

/-- Whether a character can start a word. -/
def startsWord (c : Char) : Bool := c.isAlpha || c = '_'

/-- Whether a character can stand inside a word. -/
def continuesWord (c : Char) : Bool := c.isAlphanum || c = '_'

/-- The marks. -/
def marks : List Char := "<>,.;?()[]*/+%-".toList

/-- The spelling of a string up to its closing quote, its opening quote being gone. -/
def takeQuoted? : List Char → Option (List Char × List Char)
  | [] => none
  | '"' :: rest => some (['"'], rest)
  | '\\' :: c :: rest =>
    if c = '\n' then none
    else (takeQuoted? rest).map fun (spelling, rest) => ('\\' :: c :: spelling, rest)
  | c :: rest =>
    if c = '\\' then none
    else (takeQuoted? rest).map fun (spelling, rest) => (c :: spelling, rest)

/-- A decimal number; a point or an exponent mark that has no digits is left alone. -/
def decimal (s : List Char) : Lexeme × List Char :=
  let (whole, rest) := takeDigits s
  let (fraction, rest) := Decimal.takeFraction rest
  let (exponent, rest) := Decimal.takeExponent rest
  (.number ((Decimal.ofParts whole fraction (exponent.getD 0)).nearest false), rest)

/-- The digits after `0x` or `0X`, if there are any. -/
def takeHex? : List Char → Option (List Char × List Char)
  | '0' :: x :: rest =>
    if x = 'x' ∨ x = 'X' then
      match rest.span fun c => (Text.hexDigitValue? c).isSome with
      | ([], _) => none
      | found => some found
    else none
  | _ => none

/-- The number that hexadecimal digits spell. -/
def ofHexDigits (digits : List Char) : Nat :=
  digits.foldl (fun value c => value * 16 + (Text.hexDigitValue? c).getD 0) 0

/-- The first lexeme of a text that does not start with white space. -/
def first (s : List Char) : Except SyntaxFault (Lexeme × List Char) :=
  match takeHex? s with
  | some (digits, rest) =>
    let value := ofHexDigits digits
    if value < 18446744073709551616 then .ok (.number (.ofNat value), rest) else .error .hexTooLarge
  | none =>
    match s with
    | [] => .error (.unexpectedInput "")
    | c :: rest =>
      if c.isDigit then .ok (decimal s)
      else if c = '"' then
        match takeQuoted? rest with
        | none => .error (.unexpectedInput (String.ofList s))
        | some (spelling, rest) =>
          match Json.readString spelling with
          | .ok (text, _) => .ok (.string text, rest)
          | .error fault => .error (.badString fault)
      else if startsWord c then
        let (body, rest) := s.span continuesWord
        .ok (.word (String.ofList body), rest)
      else if marks.contains c then .ok (.mark c, rest)
      else .error (.unexpectedInput (String.ofList s))

/-- The lexemes of a text. The bound counts them. -/
def lexWithin : Nat → List Char → Except SyntaxFault (List Lexeme)
  | bound, s =>
    match Text.trimStart s with
    | [] => .ok []
    | c :: rest =>
      match bound with
      | 0 => .error .exhausted
      | bound + 1 => do
        let (lexeme, rest) ← first (c :: rest)
        let lexemes ← lexWithin bound rest
        return lexeme :: lexemes

end Lexeme

/-- The lexemes of a text; there are no more of them than characters. -/
def lex (text : String) : Except SyntaxFault (List Lexeme) :=
  Lexeme.lexWithin text.toList.length text.toList

end Wireform
