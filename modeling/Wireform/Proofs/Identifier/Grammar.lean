import Wireform.Identifier.Parser

/-!
# The grammar of identifier text

    type := '?' type | '[' type ';' sum ']' | 'Option' '<' type '>' | PARAMETER | segment segments
    segment := WORD | WORD '<' sums '>' segments := | '.' segment segments sums := sum | sum ','
    sums sum := product | sum ('+' | '-') product product := factor | product ('*' | '/' | '%')
    factor factor := NUMBER | STRING | '(' sum ')' | '-' factor | FUNCTION '(' sums ')' | type

A derivation is a tree. It says which lexemes it derives, and what they mean: an operator is
written after its operands, `-x` is `0 - x`, and a parameter that stands alone as a factor is a
token of its own. Operators are left-associative, so what follows the first operand of a sum or of
a product is a list of operators with their operands.

* `TypeTree.lexemes`, `SumTree.lexemes`: what a tree derives.
* `TypeTree.reference`, `SumTree.tokens`: what it means.
* `TypeTree.Proper`, `SumTree.Proper`: a word is read as `Option`, as a parameter or as a function
  wherever it can be.
* `TypeTree.height_le`: a tree is at most eight times as high as it has lexemes.
-/

namespace Wireform.Grammar

/-- An operator between products. -/
inductive SumOperator where
  | plus | minus

/-- An operator between factors. -/
inductive ProductOperator where
  | times | divide | remainder

/-- Its mark. -/
def SumOperator.mark : SumOperator → Char
  | .plus => '+'
  | .minus => '-'

/-- Its name as a token. -/
def SumOperator.name : SumOperator → String
  | .plus => "+"
  | .minus => "-"

/-- Its mark. -/
def ProductOperator.mark : ProductOperator → Char
  | .times => '*'
  | .divide => '/'
  | .remainder => '%'

/-- Its name as a token. -/
def ProductOperator.name : ProductOperator → String
  | .times => "*"
  | .divide => "/"
  | .remainder => "%"

mutual

/-- A derivation of a type reference. -/
inductive TypeTree where
  | nullable (inner : TypeTree)
  | array (element : TypeTree) (size : SumTree)
  | option (inner : TypeTree)
  | parameter (name : String)
  | path (first : SegmentTree) (more : SegmentsTree)

/-- A derivation of a name, with or without arguments. -/
inductive SegmentTree where
  | plain (name : String)
  | applied (name : String) (arguments : SumsTree)

/-- A derivation of the names that follow points. -/
inductive SegmentsTree where
  | nil
  | cons (first : SegmentTree) (rest : SegmentsTree)

/-- A derivation of expressions between commas, of which there is at least one. -/
inductive SumsTree where
  | last (expr : SumTree)
  | cons (expr : SumTree) (rest : SumsTree)

/-- A derivation of an expression. -/
inductive SumTree where
  | mk (first : ProductTree) (more : SumRest)

/-- A derivation of what follows the first product of a sum. -/
inductive SumRest where
  | nil
  | cons (operator : SumOperator) (operand : ProductTree) (rest : SumRest)

/-- A derivation of a product. -/
inductive ProductTree where
  | mk (first : FactorTree) (more : ProductRest)

/-- A derivation of what follows the first factor of a product. -/
inductive ProductRest where
  | nil
  | cons (operator : ProductOperator) (operand : FactorTree) (rest : ProductRest)

/-- A derivation of a factor. -/
inductive FactorTree where
  | number (value : Binary64)
  | string (text : String)
  | group (inner : SumTree)
  | negation (operand : FactorTree)
  | call (function : String) (operands : SumsTree)
  | type (reference : TypeTree)

end

/-! ### What a tree derives -/

mutual

/-- The lexemes of a type reference. -/
def TypeTree.lexemes : TypeTree → List Lexeme
  | .nullable inner => .mark '?' :: inner.lexemes
  | .array element size => .mark '[' :: element.lexemes ++ .mark ';' :: size.lexemes ++ [.mark ']']
  | .option inner => .word "Option" :: .mark '<' :: inner.lexemes ++ [.mark '>']
  | .parameter name => [.word name]
  | .path first more => first.lexemes ++ more.lexemes

/-- The lexemes of a name with its arguments. -/
def SegmentTree.lexemes : SegmentTree → List Lexeme
  | .plain name => [.word name]
  | .applied name arguments => .word name :: .mark '<' :: arguments.lexemes ++ [.mark '>']

/-- The lexemes of further names, each after a point. -/
def SegmentsTree.lexemes : SegmentsTree → List Lexeme
  | .nil => []
  | .cons first rest => .mark '.' :: first.lexemes ++ rest.lexemes

/-- The lexemes of expressions with commas between them. -/
def SumsTree.lexemes : SumsTree → List Lexeme
  | .last expr => expr.lexemes
  | .cons expr rest => expr.lexemes ++ .mark ',' :: rest.lexemes

/-- The lexemes of an expression. -/
def SumTree.lexemes : SumTree → List Lexeme
  | .mk first more => first.lexemes ++ more.lexemes

/-- The lexemes of further products, each after its operator. -/
def SumRest.lexemes : SumRest → List Lexeme
  | .nil => []
  | .cons operator operand rest => .mark operator.mark :: operand.lexemes ++ rest.lexemes

/-- The lexemes of a product. -/
def ProductTree.lexemes : ProductTree → List Lexeme
  | .mk first more => first.lexemes ++ more.lexemes

/-- The lexemes of further factors, each after its operator. -/
def ProductRest.lexemes : ProductRest → List Lexeme
  | .nil => []
  | .cons operator operand rest => .mark operator.mark :: operand.lexemes ++ rest.lexemes

/-- The lexemes of a factor. -/
def FactorTree.lexemes : FactorTree → List Lexeme
  | .number value => [.number value]
  | .string text => [.string text]
  | .group inner => .mark '(' :: inner.lexemes ++ [.mark ')']
  | .negation operand => .mark '-' :: operand.lexemes
  | .call function operands => .word function :: .mark '(' :: operands.lexemes ++ [.mark ')']
  | .type reference => reference.lexemes

end

/-! ### What a tree means -/

/-- Names one inside the other; a name alone is no path. -/
def pathReference (first : PathSegment) : List PathSegment → TypeRef
  | [] => .ofKind (.named first.name first.arguments)
  | more => .ofKind (.path (first :: more))

/-- A reference as a factor; a parameter alone is a token of its own. -/
def referenceTokens : TypeRef → Expr
  | ⟨.parameter name, false⟩ => [.parameter name]
  | reference => [.type reference]

mutual

/-- The reference that a tree stands for. -/
def TypeTree.reference : TypeTree → TypeRef
  | .nullable inner => inner.reference.orNull
  | .array element size => .array element.reference size.tokens
  | .option inner => inner.reference.orNull
  | .parameter name => .parameter name
  | .path first more => pathReference first.segment more.segments

/-- The name with its arguments. -/
def SegmentTree.segment : SegmentTree → PathSegment
  | .plain name => ⟨name, none⟩
  | .applied name arguments => ⟨name, some arguments.exprs⟩

/-- The names with their arguments. -/
def SegmentsTree.segments : SegmentsTree → List PathSegment
  | .nil => []
  | .cons first rest => first.segment :: rest.segments

/-- The expressions. -/
def SumsTree.exprs : SumsTree → List Expr
  | .last expr => [expr.tokens]
  | .cons expr rest => expr.tokens :: rest.exprs

/-- The expression in postfix order. -/
def SumTree.tokens : SumTree → Expr
  | .mk first more => more.tokensAfter first.tokens

/-- What further products make of the tokens before them. -/
def SumRest.tokensAfter : SumRest → Expr → Expr
  | .nil, sofar => sofar
  | .cons operator operand rest, sofar =>
    rest.tokensAfter (sofar ++ operand.tokens ++ [.operator operator.name])

/-- The product in postfix order. -/
def ProductTree.tokens : ProductTree → Expr
  | .mk first more => more.tokensAfter first.tokens

/-- What further factors make of the tokens before them. -/
def ProductRest.tokensAfter : ProductRest → Expr → Expr
  | .nil, sofar => sofar
  | .cons operator operand rest, sofar =>
    rest.tokensAfter (sofar ++ operand.tokens ++ [.operator operator.name])

/-- The factor in postfix order. -/
def FactorTree.tokens : FactorTree → Expr
  | .number value => [.number value]
  | .string text => [.string text]
  | .group inner => inner.tokens
  | .negation operand => .number (.zero false) :: operand.tokens ++ [.operator "-"]
  | .call function operands => operands.exprs.flatten ++ [.operator function]
  | .type reference => referenceTokens reference.reference

end

/-! ### How words are read -/

/-- A path does not start with a word that has to be read in another way: with `Option` before its
argument, or with a parameter that stands alone. -/
def StartsPath (parameters : List String) : SegmentTree → SegmentsTree → Prop
  | .plain name, .nil => name ∉ parameters
  | .plain _, .cons .. => True
  | .applied name _, _ => name ≠ "Option"

section

variable (parameters : List String)

mutual

/-- Words are read as what they have to be. -/
def TypeTree.Proper : TypeTree → Prop
  | .nullable inner => inner.Proper
  | .array element size => element.Proper ∧ size.Proper
  | .option inner => inner.Proper
  | .parameter name => name ∈ parameters
  | .path first more => StartsPath parameters first more ∧ first.Proper ∧ more.Proper

/-- Words are read as what they have to be. -/
def SegmentTree.Proper : SegmentTree → Prop
  | .plain _ => True
  | .applied _ arguments => arguments.Proper

/-- Words are read as what they have to be. -/
def SegmentsTree.Proper : SegmentsTree → Prop
  | .nil => True
  | .cons first rest => first.Proper ∧ rest.Proper

/-- Words are read as what they have to be. -/
def SumsTree.Proper : SumsTree → Prop
  | .last expr => expr.Proper
  | .cons expr rest => expr.Proper ∧ rest.Proper

/-- Words are read as what they have to be. -/
def SumTree.Proper : SumTree → Prop
  | .mk first more => first.Proper ∧ more.Proper

/-- Words are read as what they have to be. -/
def SumRest.Proper : SumRest → Prop
  | .nil => True
  | .cons _ operand rest => operand.Proper ∧ rest.Proper

/-- Words are read as what they have to be. -/
def ProductTree.Proper : ProductTree → Prop
  | .mk first more => first.Proper ∧ more.Proper

/-- Words are read as what they have to be. -/
def ProductRest.Proper : ProductRest → Prop
  | .nil => True
  | .cons _ operand rest => operand.Proper ∧ rest.Proper

/-- Words are read as what they have to be. -/
def FactorTree.Proper : FactorTree → Prop
  | .number _ => True
  | .string _ => True
  | .group inner => inner.Proper
  | .negation operand => operand.Proper
  | .call function operands => function ∈ Parsing.functions ∧ operands.Proper
  | .type reference => reference.Proper

end

end

/-! ### Heights -/

mutual

/-- The number of readers one inside the other. -/
def TypeTree.height : TypeTree → Nat
  | .nullable inner => inner.height + 1
  | .array element size => max element.height size.height + 1
  | .option inner => inner.height + 1
  | .parameter _ => 1
  | .path first more => max first.height more.height + 1

/-- The number of readers one inside the other. -/
def SegmentTree.height : SegmentTree → Nat
  | .plain _ => 1
  | .applied _ arguments => arguments.height + 1

/-- The number of readers one inside the other. -/
def SegmentsTree.height : SegmentsTree → Nat
  | .nil => 1
  | .cons first rest => max first.height rest.height + 1

/-- The number of readers one inside the other. -/
def SumsTree.height : SumsTree → Nat
  | .last expr => expr.height + 1
  | .cons expr rest => max expr.height rest.height + 1

/-- The number of readers one inside the other. -/
def SumTree.height : SumTree → Nat
  | .mk first more => max first.height more.height + 1

/-- The number of readers one inside the other. -/
def SumRest.height : SumRest → Nat
  | .nil => 1
  | .cons _ operand rest => max operand.height rest.height + 1

/-- The number of readers one inside the other. -/
def ProductTree.height : ProductTree → Nat
  | .mk first more => max first.height more.height + 1

/-- The number of readers one inside the other. -/
def ProductRest.height : ProductRest → Nat
  | .nil => 1
  | .cons _ operand rest => max operand.height rest.height + 1

/-- The number of readers one inside the other. -/
def FactorTree.height : FactorTree → Nat
  | .number _ => 1
  | .string _ => 1
  | .group inner => inner.height + 1
  | .negation operand => operand.height + 1
  | .call _ operands => operands.height + 1
  | .type reference => reference.height + 1

end

-- every round from a type back to a type passes six readers and takes a lexeme, and what may be
-- without lexemes is one reader high
mutual

theorem TypeTree.height_le (tree : TypeTree) : tree.height + 4 ≤ 8 * tree.lexemes.length := by
  cases tree with
  | nullable inner =>
    have := inner.height_le
    simp [TypeTree.height, TypeTree.lexemes]
    omega
  | array element size =>
    have := element.height_le
    have := size.height_le
    simp [TypeTree.height, TypeTree.lexemes]
    omega
  | option inner =>
    have := inner.height_le
    simp [TypeTree.height, TypeTree.lexemes]
    omega
  | parameter name => simp [TypeTree.height, TypeTree.lexemes]
  | path first more =>
    have := first.height_le
    have := more.height_le
    simp [TypeTree.height, TypeTree.lexemes]
    omega

theorem SegmentTree.height_le (tree : SegmentTree) : tree.height + 5 ≤ 8 * tree.lexemes.length := by
  cases tree with
  | plain name => simp [SegmentTree.height, SegmentTree.lexemes]
  | applied name arguments =>
    have := arguments.height_le
    simp [SegmentTree.height, SegmentTree.lexemes]
    omega

theorem SegmentsTree.height_le (tree : SegmentsTree) :
    tree.height ≤ 8 * tree.lexemes.length + 1 := by
  cases tree with
  | nil => simp [SegmentsTree.height]
  | cons first rest =>
    have := first.height_le
    have := rest.height_le
    simp [SegmentsTree.height, SegmentsTree.lexemes]
    omega

theorem SumsTree.height_le (tree : SumsTree) : tree.height ≤ 8 * tree.lexemes.length := by
  cases tree with
  | last expr =>
    have := expr.height_le
    simp [SumsTree.height, SumsTree.lexemes]
    omega
  | cons expr rest =>
    have := expr.height_le
    have := rest.height_le
    simp [SumsTree.height, SumsTree.lexemes]
    omega

theorem SumTree.height_le (tree : SumTree) : tree.height + 1 ≤ 8 * tree.lexemes.length := by
  obtain ⟨first, more⟩ := tree
  have := first.height_le
  have := more.height_le
  simp [SumTree.height, SumTree.lexemes]
  omega

theorem SumRest.height_le (tree : SumRest) : tree.height ≤ 8 * tree.lexemes.length + 1 := by
  cases tree with
  | nil => simp [SumRest.height]
  | cons operator operand rest =>
    have := operand.height_le
    have := rest.height_le
    simp [SumRest.height, SumRest.lexemes]
    omega

theorem ProductTree.height_le (tree : ProductTree) : tree.height + 2 ≤ 8 * tree.lexemes.length := by
  obtain ⟨first, more⟩ := tree
  have := first.height_le
  have := more.height_le
  simp [ProductTree.height, ProductTree.lexemes]
  omega

theorem ProductRest.height_le (tree : ProductRest) : tree.height ≤ 8 * tree.lexemes.length + 1 := by
  cases tree with
  | nil => simp [ProductRest.height]
  | cons operator operand rest =>
    have := operand.height_le
    have := rest.height_le
    simp [ProductRest.height, ProductRest.lexemes]
    omega

theorem FactorTree.height_le (tree : FactorTree) : tree.height + 3 ≤ 8 * tree.lexemes.length := by
  cases tree with
  | number value => simp [FactorTree.height, FactorTree.lexemes]
  | string text => simp [FactorTree.height, FactorTree.lexemes]
  | group inner =>
    have := inner.height_le
    simp [FactorTree.height, FactorTree.lexemes]
    omega
  | negation operand =>
    have := operand.height_le
    simp [FactorTree.height, FactorTree.lexemes]
    omega
  | call function operands =>
    have := operands.height_le
    simp [FactorTree.height, FactorTree.lexemes]
    omega
  | type reference =>
    have := reference.height_le
    simp [FactorTree.height, FactorTree.lexemes]
    omega

end

end Wireform.Grammar
