import Wireform.CompileError

/-!
# Reading type references and expressions

    type    := '?' type | '[' type ';' sum ']' | 'Option' '<' type '>'
             | PARAMETER | segment ('.' segment)*
    segment := WORD ('<' sum (',' sum)* '>')?
    sum     := product (('+' | '-') product)*
    product := factor (('*' | '/' | '%') factor)*
    factor  := NUMBER | STRING | '(' sum ')' | '-' factor
             | FUNCTION '(' sum (',' sum)* ')' | type

A parameter stands alone only where neither `<` nor `.` follows. Operators are
written after their operands; `-x` is `0 - x`.

* `TypeRef.parse`, `Expr.parse`: a whole text.
-/

namespace Wireform

/-- Reading from lexemes. -/
abbrev Parsing := EStateM SyntaxFault (List Lexeme)

namespace Parsing

/-- Steps over a mark if it comes next. -/
def eat (symbol : Char) : Parsing Bool := fun s =>
  match s with
  | .mark found :: rest => if found = symbol then .ok true rest else .ok false s
  | _ => .ok false s

/-- Steps over a mark that has to come next. -/
def expect (symbol : Char) : Parsing Unit := do
  if ← eat symbol then pure () else throw (.expectedMark symbol)

/-- A word that has to come next. -/
def word : Parsing String := fun s =>
  match s with
  | .word text :: rest => .ok text rest
  | other => .error (.expectedWord other.head?) s

/-- Nothing may come next. -/
def finish : Parsing Unit := fun s =>
  match s with
  | [] => .ok () s
  | next :: _ => .error (.trailing next) s

/-- The names that are functions when a parenthesis follows. -/
def functions : List String := ["floor", "round", "ceil", "min", "max", "sizeof"]

/-- Whether a mark comes first. -/
def startsWith (symbol : Char) (s : List Lexeme) : Bool := s.head? = some (.mark symbol)

variable (parameters : List String)

mutual

/-- A type reference. In all readers of this block the first argument bounds the number of steps. -/
def type : Nat → Parsing TypeRef
  | 0 => throw .exhausted
  | bound + 1 => do
    if ← eat '?' then
      return (← type bound).orNull
    if ← eat '[' then
      let element ← type bound
      expect ';'
      let size ← sum bound
      expect ']'
      return .array element size
    let name ← word
    let next ← get
    if name = "Option" && startsWith '<' next then
      expect '<'
      let inner ← type bound
      expect '>'
      return inner.orNull
    if parameters.contains name && !startsWith '<' next && !startsWith '.' next then
      return .parameter name
    let first ← segment bound name
    match ← segments bound with
    | [] => return .ofKind (.named first.name first.arguments)
    | more => return .ofKind (.path (first :: more))

/-- The arguments after a name. -/
def segment : Nat → String → Parsing PathSegment
  | 0, _ => throw .exhausted
  | bound + 1, name => do
    if ← eat '<' then
      return ⟨name, some (← arguments bound '>')⟩
    return ⟨name, none⟩

/-- The segments after the first. -/
def segments : Nat → Parsing (List PathSegment)
  | 0 => throw .exhausted
  | bound + 1 => do
    if ← eat '.' then
      let first ← segment bound (← word)
      return first :: (← segments bound)
    return []

/-- Expressions between commas, up to a closing mark. -/
def arguments : Nat → Char → Parsing (List Expr)
  | 0, _ => throw .exhausted
  | bound + 1, close => do
    let first ← sum bound
    if ← eat close then
      return [first]
    expect ','
    return first :: (← arguments bound close)

/-- Products between plus and minus signs. -/
def sum : Nat → Parsing Expr
  | 0 => throw .exhausted
  | bound + 1 => do moreSum bound (← product bound)

/-- What follows the first product of a sum; the tokens so far are given. -/
def moreSum : Nat → Expr → Parsing Expr
  | 0, _ => throw .exhausted
  | bound + 1, sofar => do
    if ← eat '+' then
      moreSum bound (sofar ++ (← product bound) ++ [.operator "+"])
    else if ← eat '-' then
      moreSum bound (sofar ++ (← product bound) ++ [.operator "-"])
    else return sofar

/-- Factors between the other operators. -/
def product : Nat → Parsing Expr
  | 0 => throw .exhausted
  | bound + 1 => do moreProduct bound (← factor bound)

/-- What follows the first factor of a product; the tokens so far are given. -/
def moreProduct : Nat → Expr → Parsing Expr
  | 0, _ => throw .exhausted
  | bound + 1, sofar => do
    if ← eat '*' then
      moreProduct bound (sofar ++ (← factor bound) ++ [.operator "*"])
    else if ← eat '/' then
      moreProduct bound (sofar ++ (← factor bound) ++ [.operator "/"])
    else if ← eat '%' then
      moreProduct bound (sofar ++ (← factor bound) ++ [.operator "%"])
    else return sofar

/-- A literal, a parenthesis, a negation, a call or a type. -/
def factor : Nat → Parsing Expr
  | 0 => throw .exhausted
  | bound + 1 => do
    match ← get with
    | .number value :: rest =>
      set rest
      return [.number value]
    | .string text :: rest =>
      set rest
      return [.string text]
    | .mark '(' :: rest =>
      set rest
      let inner ← sum bound
      expect ')'
      return inner
    | .mark '-' :: rest =>
      set rest
      let negated ← factor bound
      return .number (.zero false) :: negated ++ [.operator "-"]
    | lexemes =>
      match call? lexemes with
      | some (name, rest) =>
        set rest
        let operands ← arguments bound ')'
        return operands.flatten ++ [.operator name]
      | none =>
        match ← type bound with
        | ⟨.parameter name, false⟩ => return [.parameter name]
        | reference => return [.type reference]
where
  /-- A function's name with the parenthesis after it. -/
  call? : List Lexeme → Option (String × List Lexeme)
    | .word name :: .mark '(' :: rest =>
      if functions.contains name then some (name, rest) else none
    | _ => none

end

/-- More steps than lexemes so many can need. -/
def enoughSteps (lexemes : List Lexeme) : Nat := 8 * lexemes.length + 8

/-- A whole text, read by a reader that is given a bound on its steps. -/
def whole {α : Type} (read : Nat → Parsing α) (text : String) : Except CompileError α :=
  match lex text with
  | .error fault => .error (.malformed text fault)
  | .ok lexemes =>
    let reading : Parsing α := do
      let result ← read (enoughSteps lexemes)
      finish
      return result
    match reading.run lexemes with
    | .ok result _ => .ok result
    | .error fault _ => .error (.malformed text fault)

end Parsing

/-- The reference that a text is, given the names of the parameters in force. -/
def TypeRef.parse (text : String) (parameters : List String) : Except CompileError TypeRef :=
  Parsing.whole (Parsing.type parameters) text

/-- The expression that a text is, given the names of the parameters in force. -/
def Expr.parse (text : String) (parameters : List String) : Except CompileError Expr :=
  Parsing.whole (Parsing.sum parameters) text

end Wireform
