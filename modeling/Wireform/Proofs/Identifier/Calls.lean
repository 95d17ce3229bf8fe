import Wireform.Proofs.Expression.Height
import Wireform.Proofs.Identifier.Acceptance
import Wireform.Proofs.Identifier.Nesting

/-!
# Calls with too many or too few arguments

A function may be called with any number of arguments, and once its operator stands behind them it
is forgotten how many there were. What is left to tell is the height of the stack: an argument too
many raises the stack by one for good, one too few lowers it. So in an expression that has a value
the calls have as many arguments too many as others have too few; and in that case one call does
take what is left over from another.

* `SumTree.surplus`: the arguments that the calls of an expression have too many, in all.
* `SumTree.height_eq`: the stack is higher by one and by the surplus.
* `SumTree.no_value`: an expression with a surplus, or with an operator that lacks operands, has no
  value.
* `surplus_decides`: **this of all that is read from a text, down to the arguments and sizes in
  types.**
* `surplus_taken`: a call that takes what another one leaves over.
-/

namespace Wireform

open Expression Parsing

namespace Grammar

/-- How many operands a function takes. -/
def operands (function : String) : ℕ := ((Operator.ofName? function).map Operator.arity).getD 0

/-- How many arguments there are. -/
def SumsTree.count : SumsTree → ℕ
  | .last _ => 1
  | .cons _ rest => rest.count + 1

mutual

/-- The arguments that the calls of an expression have too many; those of the types
in it are not counted. -/
def SumTree.surplus : SumTree → Int
  | .mk first more => first.surplus + more.surplus

/-- The arguments that the calls of further products have too many. -/
def SumRest.surplus : SumRest → Int
  | .nil => 0
  | .cons _ operand rest => operand.surplus + rest.surplus

/-- The arguments that the calls of a product have too many. -/
def ProductTree.surplus : ProductTree → Int
  | .mk first more => first.surplus + more.surplus

/-- The arguments that the calls of further factors have too many. -/
def ProductRest.surplus : ProductRest → Int
  | .nil => 0
  | .cons _ operand rest => operand.surplus + rest.surplus

/-- The arguments that a call has too many, together with those of the calls in it. -/
def FactorTree.surplus : FactorTree → Int
  | .number _ => 0
  | .string _ => 0
  | .group inner => inner.surplus
  | .negation operand => operand.surplus
  | .call function arguments => arguments.surplus + (arguments.count - operands function)
  | .type _ => 0

/-- The arguments that the calls of some expressions have too many. -/
def SumsTree.surplus : SumsTree → Int
  | .last expr => expr.surplus
  | .cons expr rest => expr.surplus + rest.surplus

end

theorem exists_operator {function : String} (h : function ∈ functions) :
    ∃ operator, Operator.ofName? function = some operator ∧ operator.arity = operands function := by
  simp only [functions, List.mem_cons, List.not_mem_nil, or_false] at h
  rcases h with rfl | rfl | rfl | rfl | rfl | rfl <;> exact ⟨_, rfl, rfl⟩

theorem SumOperator.exists_binary (operator : SumOperator) :
    ∃ binary, Operator.ofName? operator.name = some (.binary binary) := by
  cases operator <;> exact ⟨_, rfl⟩

theorem ProductOperator.exists_binary (operator : ProductOperator) :
    ∃ binary, Operator.ofName? operator.name = some (.binary binary) := by
  cases operator <;> exact ⟨_, rfl⟩

/-- What an operator leaves of the stack below it. -/
theorem exists_of_height?_operator {height after : ℕ} {expr : Expr} {name : String}
    {operator : Operator} (hname : Operator.ofName? name = some operator)
    (h : height? height (expr ++ [.operator name]) = some after) :
    ∃ mid, height? height expr = some mid ∧ operator.arity ≤ mid ∧
      after = mid - operator.arity + 1 := by
  obtain ⟨found, mid, hfound, hmid, harity⟩ := exists_arity_le h
  obtain rfl := Option.some.inj (hname.symm.trans hfound)
  rw [height?_append, hmid, Option.bind_some, height?_operator hname harity] at h
  exact ⟨mid, hmid, harity, (Option.some.inj h).symm⟩

/-- A binary operator behind its second operand leaves one less than there was behind that
operand. -/
theorem exists_of_height?_binary {height after : ℕ} {sofar operand : Expr} {name : String}
    {binary : BinaryOperator} (hname : Operator.ofName? name = some (.binary binary))
    (h : height? height (sofar ++ operand ++ [.operator name]) = some after) :
    ∃ mid both, height? height sofar = some mid ∧ height? mid operand = some both ∧
      both = after + 1 := by
  obtain ⟨both, hboth, harity, rfl⟩ := exists_of_height?_operator hname h
  rw [height?_append] at hboth
  obtain ⟨mid, hmid, hoperand⟩ := Option.bind_eq_some_iff.1 hboth
  refine ⟨mid, both, hmid, hoperand, ?_⟩
  simp only [Operator.arity] at harity ⊢
  omega

variable {parameters : List String}

mutual

/-- **The height of the stack** behind an expression: one more than before it, and the surplus. -/
theorem SumTree.height_eq (tree : SumTree) (hproper : tree.Proper parameters) {height after : ℕ}
    (h : height? height tree.tokens = some after) : (after : Int) = height + 1 + tree.surplus := by
  obtain ⟨first, more⟩ := tree
  obtain ⟨mid, hmid, hafter⟩ := more.height_eq hproper.2 h
  have hfirst := first.height_eq hproper.1 hmid
  rw [SumTree.surplus]
  omega

theorem SumRest.height_eq (tree : SumRest) (hproper : tree.Proper parameters)
    {height after : ℕ} {sofar : Expr} (h : height? height (tree.tokensAfter sofar) = some after) :
    ∃ mid, height? height sofar = some mid ∧ (after : Int) = mid + tree.surplus := by
  cases tree with
  | nil => exact ⟨after, h, by simp [SumRest.surplus]⟩
  | cons operator operand rest =>
    obtain ⟨behind, hbehind, hafter⟩ := rest.height_eq hproper.2 h
    obtain ⟨binary, hname⟩ := operator.exists_binary
    obtain ⟨mid, both, hmid, hoperand, hboth⟩ := exists_of_height?_binary hname hbehind
    have hraised := operand.height_eq hproper.1 hoperand
    refine ⟨mid, hmid, ?_⟩
    rw [SumRest.surplus]
    omega

theorem ProductTree.height_eq (tree : ProductTree) (hproper : tree.Proper parameters)
    {height after : ℕ} (h : height? height tree.tokens = some after) :
    (after : Int) = height + 1 + tree.surplus := by
  obtain ⟨first, more⟩ := tree
  obtain ⟨mid, hmid, hafter⟩ := more.height_eq hproper.2 h
  have hfirst := first.height_eq hproper.1 hmid
  rw [ProductTree.surplus]
  omega

theorem ProductRest.height_eq (tree : ProductRest) (hproper : tree.Proper parameters)
    {height after : ℕ} {sofar : Expr} (h : height? height (tree.tokensAfter sofar) = some after) :
    ∃ mid, height? height sofar = some mid ∧ (after : Int) = mid + tree.surplus := by
  cases tree with
  | nil => exact ⟨after, h, by simp [ProductRest.surplus]⟩
  | cons operator operand rest =>
    obtain ⟨behind, hbehind, hafter⟩ := rest.height_eq hproper.2 h
    obtain ⟨binary, hname⟩ := operator.exists_binary
    obtain ⟨mid, both, hmid, hoperand, hboth⟩ := exists_of_height?_binary hname hbehind
    have hraised := operand.height_eq hproper.1 hoperand
    refine ⟨mid, hmid, ?_⟩
    rw [ProductRest.surplus]
    omega

theorem FactorTree.height_eq (tree : FactorTree) (hproper : tree.Proper parameters)
    {height after : ℕ} (h : height? height tree.tokens = some after) :
    (after : Int) = height + 1 + tree.surplus := by
  cases tree with
  | number value =>
    cases h
    simp [FactorTree.surplus]
  | string text =>
    cases h
    simp [FactorTree.surplus]
  | group inner => exact inner.height_eq hproper h
  | negation operand =>
    have hname : Operator.ofName? "-" = some (.binary .minus) := rfl
    obtain ⟨mid, hmid, harity, rfl⟩ := exists_of_height?_operator hname h
    -- the zero in front of the operand is one more
    have hoperand : height? (height + 1) operand.tokens = some mid := hmid
    have hraised := operand.height_eq hproper hoperand
    simp only [Operator.arity] at harity ⊢
    rw [FactorTree.surplus]
    omega
  | call function arguments =>
    obtain ⟨operator, hname, hoperands⟩ := exists_operator hproper.1
    obtain ⟨mid, hmid, harity, rfl⟩ := exists_of_height?_operator hname h
    have hraised := arguments.height_eq hproper.2 hmid
    rw [FactorTree.surplus, ← hoperands]
    omega
  | type reference =>
    have hone : (FactorTree.type reference).tokens = [.type reference.reference] ∨
        ∃ name, (FactorTree.type reference).tokens = [.parameter name] := by
      unfold FactorTree.tokens referenceTokens
      split
      · next name _ => exact Or.inr ⟨name, rfl⟩
      · exact Or.inl rfl
    rcases hone with htokens | ⟨name, htokens⟩
    · rw [htokens] at h
      cases h
      simp [FactorTree.surplus]
    · rw [htokens] at h
      cases h
      simp [FactorTree.surplus]

theorem SumsTree.height_eq (tree : SumsTree) (hproper : tree.Proper parameters) {height after : ℕ}
    (h : height? height tree.exprs.flatten = some after) :
    (after : Int) = height + tree.count + tree.surplus := by
  cases tree with
  | last expr =>
    rw [SumsTree.exprs, List.flatten_cons, List.flatten_nil, List.append_nil] at h
    have hraised := expr.height_eq hproper h
    rw [SumsTree.count, SumsTree.surplus]
    omega
  | cons expr rest =>
    rw [SumsTree.exprs, List.flatten_cons, height?_append] at h
    obtain ⟨mid, hmid, hrest⟩ := Option.bind_eq_some_iff.1 h
    have hraised := expr.height_eq hproper.1 hmid
    have hafter := rest.height_eq hproper.2 hrest
    rw [SumsTree.count, SumsTree.surplus]
    omega

end

/-- What the surplus of an expression tells of its values. -/
structure SumTree.Accounts (tree : SumTree) : Prop where
  /-- With a surplus, or with an operator that lacks operands, there is none, whatever is bound. -/
  rejected : tree.surplus ≠ 0 ∨ height? 0 tree.tokens = none →
    ∀ {σ : Type} (sizer : TypeRef → Compiling σ Size)
    (bindings : Bindings) (s : σ), ∃ stop t, evaluate sizer bindings tree.tokens s = .error stop t
  /-- Otherwise an expression of numbers has one. -/
  accepted : tree.surplus = 0 → height? 0 tree.tokens ≠ none →
    (∀ token ∈ tree.tokens, IsArithmetic token) →
    ∀ {σ : Type} (sizer : TypeRef → Compiling σ Size) (bindings : Bindings) (s : σ),
      ∃ value, evaluate sizer bindings tree.tokens s = .ok (.number value) s

/-- An expression that has a value has no surplus, and no operator of it lacks operands. -/
theorem SumTree.accounts (tree : SumTree) (hproper : tree.Proper parameters) : tree.Accounts where
  rejected := by
    intro hwrong σ sizer bindings s
    cases hrun : evaluate sizer bindings tree.tokens s with
    | error stop t => exact ⟨stop, t, rfl⟩
    | ok operand t =>
      have hheight := height?_of_evaluate hrun
      have hone := tree.height_eq hproper hheight
      rcases hwrong with hsurplus | hnone
      · omega
      · rw [hheight] at hnone
        cases hnone
  accepted := by
    intro hsurplus hsome harithmetic σ sizer bindings s
    obtain ⟨after, hafter⟩ := Option.ne_none_iff_exists'.1 hsome
    have hone := tree.height_eq hproper hafter
    obtain rfl : after = 1 := by omega
    exact exists_value_of_height harithmetic hafter

end Grammar

open Grammar

/-- **A surplus of arguments is not made up for**, in any expression that is read from a text and in
any argument or size inside a type: if its calls have too many in all, or too few, or an operator
lacks operands, it has no value. -/
theorem surplus_decides (parameters : List String) (text : String) :
    (∀ expr, Expr.parse text parameters = .ok expr → ∃ lexemes tree, lex text = .ok lexemes ∧
      SumTree.Derives parameters lexemes tree ∧ tree.tokens = expr ∧ tree.Accounts ∧
      ∀ sum ∈ tree.inner, Embeds expr sum.tokens ∧ sum.Accounts) ∧
    ∀ r, TypeRef.parse text parameters = .ok r → ∃ lexemes tree, lex text = .ok lexemes ∧
      TypeTree.Derives parameters lexemes tree ∧ tree.reference = r ∧
      ∀ sum ∈ tree.sums, r.Holds sum.tokens ∧ sum.Accounts := by
  constructor
  · intro expr hparse
    obtain ⟨lexemes, hlex, tree, hderives, rfl⟩ := Expr.parse_eq_ok.1 hparse
    refine ⟨lexemes, tree, hlex, hderives, rfl, tree.accounts hderives.1, ?_⟩
    intro sum hsum
    obtain ⟨hproper, hembeds⟩ := SumTree.embeds tree hderives.1 hsum
    exact ⟨hembeds, sum.accounts hproper⟩
  · intro r hparse
    obtain ⟨lexemes, hlex, tree, hderives, rfl⟩ := TypeRef.parse_eq_ok.1 hparse
    refine ⟨lexemes, tree, hlex, hderives, rfl, ?_⟩
    intro sum hsum
    obtain ⟨hproper, hholds⟩ := tree.holds hderives.1 hsum
    exact ⟨hholds, sum.accounts hproper⟩

theorem one_argument_decides : ∃ expr, Expr.parse "min(1)" [] = .ok expr ∧
    ∀ (sizer : TypeRef → Compiling Unit Size) bindings, ∃ stop t,
      evaluate sizer bindings expr () = .error stop t := by
  have hlexemes : lex "min(1)" = .ok [.word "min", .mark '(', .number (.ofNat 1), .mark ')'] :=
    by decide +kernel
  have hparse : Expr.parse "min(1)" [] = .ok [.number (.ofNat 1), .operator "min"] :=
    whole_eq_ok.2 ⟨_, hlexemes, rfl⟩
  obtain ⟨lexemes, tree, -, -, htokens, haccounts, -⟩ := (surplus_decides [] "min(1)").1 _ hparse
  refine ⟨_, hparse, fun sizer bindings => ?_⟩
  rw [← htokens]
  exact haccounts.rejected (.inr (by rw [htokens]; rfl)) sizer bindings ()

/-- `floor` with an argument too many, of which `min` takes what is left over. -/
def surplusTree : SumTree :=
  .mk
    (.mk
      (.call "min" (.last (.mk (.mk (.call "floor" (.cons (.mk (.mk (.number (.ofNat 1)) .nil) .nil)
    (.last (.mk (.mk (.number (.ofNat 2)) .nil) .nil)))) .nil) .nil))) .nil) .nil

/-- **A call that takes what another one leaves over**: its value is `1`, whatever is bound. -/
theorem surplus_taken : ∃ lexemes, lex "min(floor(1, 2))" = .ok lexemes ∧
    SumTree.Derives [] lexemes surplusTree ∧
    Expr.parse "min(floor(1, 2))" [] = .ok surplusTree.tokens ∧
    ∀ (sizer : TypeRef → Compiling Unit Size) bindings,
      evaluate sizer bindings surplusTree.tokens () = .ok (.number (.ofNat 1)) () := by
  have hlexemes : lex "min(floor(1, 2))" =
      .ok [.word "min", .mark '(', .word "floor", .mark '(', .number (.ofNat 1),
      .mark ',', .number (.ofNat 2), .mark ')', .mark ')'] := by decide +kernel
  have hderives : SumTree.Derives [] [.word "min", .mark '(', .word "floor", .mark '(',
      .number (.ofNat 1), .mark ',', .number (.ofNat 2), .mark ')', .mark ')'] surplusTree := by
    refine ⟨?_, rfl⟩
    simp [surplusTree, SumTree.Proper, SumRest.Proper, ProductTree.Proper, ProductRest.Proper,
      FactorTree.Proper, SumsTree.Proper, functions]
  have hvalue : BinaryOperator.min.apply (.ofNat 1)
      (UnaryOperator.floor.apply (.ofNat 2)) = .ofNat 1 := by
    decide +kernel
  refine ⟨_, hlexemes, hderives, Expr.parse_eq_ok.2 ⟨_, hlexemes, _, hderives, rfl⟩, ?_⟩
  intro sizer bindings
  rw [← hvalue]
  rfl

end Wireform
