import Wireform.Identifier.Lexeme
import Wireform.Proofs.Expression.Folding
import Wireform.Proofs.Identifier.Numbers

/-!
# What a canonical text tells

A canonical text gives closed arithmetic by its value, a zero without its sign and a path of one
name as that name, as which it is resolved. A reference is settled if it does so too. Beyond this a
text tells everything only if it can be read in one way: names have to look like names, and where a
number may stand, `inf` and `NaN` are not names.

* `Operand.settled`: what the text of an argument tells.
* `Operand.legible`: an argument whose text can be read in one way.
-/

namespace Wireform

/-! ### Settled references -/

/-- A constant without the sign of a zero and the bits of a NaN. -/
def Constant.settled : Constant → Constant
  | .number value => .number value.settled
  | .string text => .string text

/-- An expression whose tokens have been settled: a constant if it is closed. -/
def settledExpr (expr tokens : Expr) : Expr :=
  match Expression.fold? expr with
  | some value => [(Operand.constant value.settled).token]
  | none => tokens

/-- Names that are looked up one inside the other; a single one is a name. -/
def TypeRef.ofSegments (segments : List PathSegment) (nullable : Bool) : TypeRef :=
  match segments with
  | [⟨name, arguments⟩] => ⟨.named name arguments, nullable⟩
  | segments => ⟨.path segments, nullable⟩

mutual

/-- The same reference as its text tells it. -/
def TypeRef.settled : TypeRef → TypeRef
  | ⟨.named name arguments, nullable⟩ => ⟨.named name (settledArguments arguments), nullable⟩
  | ⟨.parameter name, nullable⟩ => ⟨.parameter name, nullable⟩
  | ⟨.inline body, nullable⟩ => ⟨.inline body, nullable⟩
  | ⟨.array element size, nullable⟩ =>
    ⟨.array element.settled (settledExpr size (settledTokens size)), nullable⟩
  | ⟨.path segments, nullable⟩ => .ofSegments (settledSegments segments) nullable

/-- Settles an argument list. -/
def settledArguments : Option (List (List Token)) → Option (List (List Token))
  | none => none
  | some arguments => some (settledExprs arguments)

/-- Settles each of some expressions. -/
def settledExprs : List (List Token) → List (List Token)
  | [] => []
  | expr :: rest => settledExpr expr (settledTokens expr) :: settledExprs rest

/-- Settles each of some tokens. -/
def settledTokens : List Token → List Token
  | [] => []
  | token :: rest => settledToken token :: settledTokens rest

/-- Settles one token. -/
def settledToken : Token → Token
  | .type reference => .type reference.settled
  | .number value => .number value.settled
  | .string text => .string text
  | .parameter name => .parameter name
  | .operator name => .operator name

/-- Settles the arguments of each segment. -/
def settledSegments : List PathSegment → List PathSegment
  | [] => []
  | ⟨name, arguments⟩ :: rest => ⟨name, settledArguments arguments⟩ :: settledSegments rest

end

/-- An argument as its text tells it. -/
def Operand.settled : Operand → Operand
  | .constant value => .constant value.settled
  | .type reference => .type reference.settled

/-! ### Legible references -/

/-- Whether a name looks like a name. -/
def isName (name : String) : Bool :=
  match name.toList with
  | [] => false
  | c :: rest => Lexeme.startsWord c && rest.all Lexeme.continuesWord

/-- The name that is all there is of a reference. -/
def TypeRef.bareName? : TypeRef → Option String
  | ⟨.named name none, false⟩ => some name
  | ⟨.path [⟨name, none⟩], false⟩ => some name
  | _ => none

/-- Whether a name could be a number that is not finite. -/
def isNumberWord (name : String) : Bool := name = "inf" || name = "NaN"

mutual

/-- Whether the text of a reference can be read in one way. A text that there is not is not
misread. -/
def TypeRef.legible : TypeRef → Bool
  | ⟨.named name arguments, _⟩ => isName name && legibleArguments arguments
  | ⟨.parameter _, _⟩ => false
  | ⟨.inline _, _⟩ => true
  | ⟨.array element size, _⟩ => element.legible && legibleTokens size
  | ⟨.path segments, _⟩ => !segments.isEmpty && legibleSegments segments

/-- Whether an argument list can be read in one way. -/
def legibleArguments : Option (List (List Token)) → Bool
  | none => true
  | some arguments => legibleExprs arguments

/-- Whether some expressions can be read in one way. -/
def legibleExprs : List (List Token) → Bool
  | [] => true
  | expr :: rest => legibleTokens expr && legibleExprs rest

/-- Whether tokens can be read in one way. -/
def legibleTokens : List Token → Bool
  | [] => true
  | token :: rest => legibleToken token && legibleTokens rest

/-- Whether a token can be read in one way: among tokens, a name must not be that of an operator
either. -/
def legibleToken : Token → Bool
  | .number _ => true
  | .string _ => true
  | .type reference => reference.legible &&
    reference.bareName?.all fun name => !isNumberWord name && (Operator.ofName? name).isNone
  | .parameter _ => false
  | .operator name => (Operator.ofName? name).isSome

/-- Whether segments can be read in one way. -/
def legibleSegments : List PathSegment → Bool
  | [] => true
  | ⟨name, arguments⟩ :: rest => isName name && legibleArguments arguments && legibleSegments rest

end

/-- Whether the text of an argument can be read in one way. -/
def Operand.legible : Operand → Bool
  | .constant _ => true
  | .type reference => reference.legible && reference.bareName?.all fun name => !isNumberWord name

end Wireform
