import Wireform.Expression.Evaluation
import Wireform.Json.Printer

/-!
# Canonical text

Every reference without an inline struct has a canonical text, in which closed
arithmetic is folded; an instance of a template is known under the canonical text
of its name and arguments.

* `TypeRef.canonical?`: the text of a reference.
* `instanceKey?`: the text of an instance.
-/

namespace Wireform

/-- Pieces of text with a separator between them. -/
def joinChars (separator : List Char) (pieces : List (List Char)) : List Char :=
  separator.intercalate pieces

/-- The text of a constant: whole numbers below `9e15` without a point, texts as in JSON. -/
def Constant.chars : Constant → List Char
  | .number value =>
    if value.isWhole && value.truncate.natAbs < 9000000000000000 then
      (if value.truncate < 0 then ['-'] else []) ++ Decimal.digitChars value.truncate.natAbs
    else Decimal.plainStyle.chars value
  | .string text => Json.stringChars text

/-- The text of a constant, as a string. -/
def Constant.text (c : Constant) : String := String.ofList c.chars

/-- The text of an expression whose tokens have these texts: its value if it is closed, else the
tokens, between parentheses unless there is just one. -/
def exprChars? (expr : Expr) (tokens : Option (List (List Char))) : Option (List Char) :=
  match Expression.fold? expr, tokens with
  | some value, _ => some value.chars
  | none, some [single] => some single
  | none, some several => some ('(' :: joinChars [' '] several ++ [')'])
  | none, none => none

namespace TypeRef

/-- A text with its mark for `null`. -/
def marked (nullable : Bool) (body : List Char) : List Char :=
  if nullable then '?' :: body else body

mutual

/-- The canonical text of a reference, unless it contains an inline struct. -/
def canonicalChars? : TypeRef → Option (List Char)
  | ⟨.named name arguments, nullable⟩ => (segmentChars? name arguments).map (marked nullable)
  | ⟨.parameter name, nullable⟩ => some (marked nullable name.toList)
  | ⟨.inline _, _⟩ => none
  | ⟨.array element size, nullable⟩ => do
    let element ← canonicalChars? element
    let size ← exprChars? size (tokensChars? size)
    return marked nullable ('[' :: element ++ ';' :: ' ' :: size ++ [']'])
  | ⟨.path segments, nullable⟩ => do
    return marked nullable (joinChars ['.'] (← segmentsChars? segments))

/-- A name with its arguments in angle brackets. -/
def segmentChars? (name : String) : Option (List (List Token)) → Option (List Char)
  | none => some name.toList
  | some arguments => do
    return name.toList ++ '<' :: joinChars [',', ' '] (← exprsChars? arguments) ++ ['>']

/-- The texts of the segments of a path. -/
def segmentsChars? : List PathSegment → Option (List (List Char))
  | [] => some []
  | ⟨name, arguments⟩ :: rest => do
    let segment ← segmentChars? name arguments
    return segment :: (← segmentsChars? rest)

/-- The texts of some expressions. -/
def exprsChars? : List (List Token) → Option (List (List Char))
  | [] => some []
  | expr :: rest => do
    let text ← exprChars? expr (tokensChars? expr)
    return text :: (← exprsChars? rest)

/-- The texts of some tokens. -/
def tokensChars? : List Token → Option (List (List Char))
  | [] => some []
  | token :: rest => do
    let text ← tokenChars? token
    return text :: (← tokensChars? rest)

/-- The text of a token. -/
def tokenChars? : Token → Option (List Char)
  | .number value => some (Constant.number value).chars
  | .string text => some (Constant.string text).chars
  | .type reference => canonicalChars? reference
  | .parameter name => some name.toList
  | .operator name => some name.toList

end

/-- The canonical text of a reference, unless it contains an inline struct. -/
def canonical? (r : TypeRef) : Option String := r.canonicalChars?.map String.ofList

/-- The text of a reference for people: an inline struct is not spelled out. -/
def describe (r : TypeRef) : String :=
  match r.canonical? with
  | some text => text
  | none => if r.nullable then "?\x7b…\x7d" else "\x7b…\x7d"

end TypeRef

/-- The canonical text of an argument. -/
def Operand.chars? : Operand → Option (List Char)
  | .constant value => some value.chars
  | .type reference => reference.canonicalChars?

/-- The canonical text of an instance, unless an argument contains an inline struct. Without
arguments it is the name alone. -/
def instanceKey? (name : String) (arguments : List Operand) : Option String :=
  match arguments with
  | [] => some name
  | arguments => do
    let texts ← arguments.mapM Operand.chars?
    return String.ofList (name.toList ++ '<' :: joinChars [',', ' '] texts ++ ['>'])

end Wireform
