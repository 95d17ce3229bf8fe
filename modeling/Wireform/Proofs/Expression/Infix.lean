import Wireform.Proofs.Expression.Height
import Wireform.Proofs.Expression.Operators

/-!
# Infix expressions

An infix expression is a tree. It has a value of its own, found from its parts, the left one first;
and it has an order in which its tokens are worked off on a stack. The two come to the same,
whatever is on the stack below and whatever comes after.

* `Infix.evaluate`: the value of a tree.
* `Infix.tokens`: its tokens, each operator after its operands.
* `Infix.run_tokens`: **working off the tokens puts the value of the tree on the stack.**
* `Infix.height?_tokens`: no operator lacks operands on the way.
-/

namespace Wireform

/-- The name of an operator of one number. -/
def UnaryOperator.name : UnaryOperator → String
  | .floor => "floor"
  | .round => "round"
  | .ceil => "ceil"

/-- The name of an operator of two numbers. -/
def BinaryOperator.name : BinaryOperator → String
  | .times => "*"
  | .divide => "/"
  | .plus => "+"
  | .minus => "-"
  | .remainder => "%"
  | .min => "min"
  | .max => "max"

theorem UnaryOperator.ofName?_name (operator : UnaryOperator) :
    Operator.ofName? operator.name = some (.unary operator) := by
  cases operator <;> rfl

theorem BinaryOperator.ofName?_name (operator : BinaryOperator) :
    Operator.ofName? operator.name = some (.binary operator) := by
  cases operator <;> rfl

/-- An infix expression. -/
inductive Infix where
  | number (value : Binary64)
  | string (text : String)
  | parameter (name : String)
  | type (reference : TypeRef)
  /-- A minus sign and what follows it. -/
  | negation (operand : Infix)
  /-- A call of `floor`, `round` or `ceil`. -/
  | unary (operator : UnaryOperator) (operand : Infix)
  /-- Two operands with an operator between them, or a call of `min` or `max`. -/
  | binary (operator : BinaryOperator) (left right : Infix)
  /-- A call of `sizeof`. -/
  | sizeOf (operand : Infix)

namespace Infix

open Expression

section Values

variable {σ : Type} (sizer : TypeRef → Compiling σ Size) (bindings : Bindings)

/-- The number that the value of a part has to be, for the operator of a given name. -/
def numberFor (operator : String) : Operand → Compiling σ Binary64
  | .constant (.number value) => pure value
  | .constant (.string _) => .fail (.wanted operator .number)
  | .type _ => .fail (.wanted operator .number)

/-- The value of a tree. Parts are evaluated from the left; then the operands are looked at, again
from the left. A minus sign takes what follows from zero. -/
def evaluate : Infix → Compiling σ Operand
  | .number value => pure (.number value)
  | .string text => pure (.string text)
  | .parameter name =>
    match bindings.get? name with
    | some bound => pure bound
    | none => .fail (.undefinedType name)
  | .type reference => pure (.type (reference.substitute bindings))
  | .negation operand => do
    let b ← numberFor "-" (← operand.evaluate)
    return .number (BinaryOperator.minus.meaning (.zero false) b)
  | .unary operator operand => do
    let a ← numberFor operator.name (← operand.evaluate)
    return .number (operator.meaning a)
  | .binary operator left right => do
    let left ← left.evaluate
    let right ← right.evaluate
    let a ← numberFor operator.name left
    let b ← numberFor operator.name right
    return .number (operator.meaning a b)
  | .sizeOf operand => do
    match ← operand.evaluate with
    | .type reference =>
      match ← sizer reference with
      | .bounded bytes => return .number (.ofValue false bytes)
      | .unbounded => .fail (.unboundedSizeof reference)
    | .constant _ => .fail (.wanted "sizeof" .type)

end Values

/-- The tokens of a tree, each operator after its operands. -/
def tokens : Infix → Expr
  | .number value => [.number value]
  | .string text => [.string text]
  | .parameter name => [.parameter name]
  | .type reference => [.type reference]
  | .negation operand => .number (.zero false) :: operand.tokens ++ [.operator "-"]
  | .unary operator operand => operand.tokens ++ [.operator operator.name]
  | .binary operator left right => left.tokens ++ right.tokens ++ [.operator operator.name]
  | .sizeOf operand => operand.tokens ++ [.operator "sizeof"]

variable {σ : Type} {sizer : TypeRef → Compiling σ Size} {bindings : Bindings}

/-- Tokens are worked off one part after the other. -/
theorem run_append (stack : List Operand) (expr more : Expr) :
    run sizer bindings stack (expr ++ more) = run sizer bindings stack expr >>=
      (run sizer bindings · more) := by
  induction expr generalizing stack with
  | nil => exact (pure_bind _ _).symm
  | cons token rest ih =>
    simp only [List.cons_append, run, ih, bind_assoc]

theorem run_operator (stack : List Operand) {name : String} {operator : Operator}
    (hname : Operator.ofName? name = some operator) :
    run sizer bindings stack [.operator name] = applyOperator sizer name operator stack := by
  simp only [run, step, hname, bind_pure]

theorem number_eq (operator : String) :
    Expression.number (σ := σ) operator = numberFor operator := by
  funext operand
  match operand with
  | .constant (.number _) | .constant (.string _) | .type _ => rfl

theorem sizeOfOperand_eq (operand : Operand) :
    sizeOfOperand sizer "sizeof" operand = match operand with
      | .type reference => do
        match ← sizer reference with
        | .bounded bytes => return .number (.ofValue false bytes)
        | .unbounded => .fail (.unboundedSizeof reference)
      | .constant _ => .fail (.wanted "sizeof" .type) := by
  cases operand with
  | type reference =>
    refine bind_congr fun size => ?_
    cases size with
    | bounded bytes =>
      exact congrArg (fun value => (pure (Operand.number value) : Compiling σ Operand))
        (Binary64.ofNat_eq bytes)
    | unbounded => rfl
  | constant _ => rfl

/-- **Working off the tokens of a tree** puts its value on the stack. -/
theorem run_tokens (e : Infix) (stack : List Operand) :
    run sizer bindings stack e.tokens = e.evaluate sizer bindings >>=
      fun value => pure (value :: stack) := by
  induction e generalizing stack with
  | number value => simp only [tokens, evaluate, run, step, pure_bind]
  | string text => simp only [tokens, evaluate, run, step, pure_bind]
  | type reference => simp only [tokens, evaluate, run, step, pure_bind]
  | parameter name =>
    simp only [tokens, evaluate, run, step, bind_pure]
    cases bindings.get? name with
    | none => rfl
    | some bound => exact (pure_bind _ _).symm
  | negation operand ih =>
    -- the zero in front of the operand is on the stack when the operator comes
    have hoperator : Operator.ofName? "-" = some (.binary .minus) := rfl
    rw [tokens, run_append, run, step, pure_bind, ih]
    simp only [evaluate, bind_assoc, pure_bind, run_operator _ hoperator, applyOperator, number_eq,
      BinaryOperator.apply_eq]
    rfl
  | unary operator operand ih =>
    rw [tokens, run_append, ih]
    simp only [evaluate, bind_assoc, pure_bind, run_operator _ operator.ofName?_name, applyOperator,
      number_eq, UnaryOperator.apply_eq]
  | binary operator left right ihl ihr =>
    rw [tokens, run_append, run_append, ihl]
    simp only [evaluate, bind_assoc, pure_bind, ihr, run_operator _ operator.ofName?_name,
      applyOperator, number_eq, BinaryOperator.apply_eq]
  | sizeOf operand ih =>
    have hoperator : Operator.ofName? "sizeof" = some .sizeof := rfl
    rw [tokens, run_append, ih]
    simp only [evaluate, bind_assoc, pure_bind, run_operator _ hoperator, applyOperator,
      sizeOfOperand_eq]

/-- The value of a tree is the operand that its tokens leave. -/
theorem evaluate_tokens (e : Infix) :
    Expression.evaluate sizer bindings e.tokens = e.evaluate sizer bindings := by
  rw [Expression.evaluate, run_tokens]
  simp only [bind_assoc, pure_bind, bind_pure]

/-- The tokens of a tree raise the stack by one, and no operator lacks operands on the way. -/
theorem height?_tokens (e : Infix) (height : ℕ) : height? height e.tokens = some (height + 1) := by
  induction e generalizing height with
  | number value => rfl
  | string text => rfl
  | parameter name => rfl
  | type reference => rfl
  | negation operand ih =>
    have hoperator : Operator.ofName? "-" = some (.binary .minus) := rfl
    have hzero : height? height [.number (.zero false)] = some (height + 1) := rfl
    rw [tokens, ← List.singleton_append, List.append_assoc, height?_append, hzero, Option.bind_some,
      height?_append, ih, Option.bind_some,
      height?_operator hoperator (by simp only [Operator.arity]; omega)]
    simp only [Operator.arity, Option.some.injEq]
    omega
  | unary operator operand ih =>
    rw [tokens, height?_append, ih, Option.bind_some,
      height?_operator operator.ofName?_name (by simp [Operator.arity])]
    simp [Operator.arity]
  | binary operator left right ihl ihr =>
    rw [tokens, height?_append, height?_append, ihl, Option.bind_some, ihr, Option.bind_some,
      height?_operator operator.ofName?_name (by simp only [Operator.arity]; omega)]
    simp only [Operator.arity, Option.some.injEq]
    omega
  | sizeOf operand ih =>
    have hoperator : Operator.ofName? "sizeof" = some .sizeof := rfl
    rw [tokens, height?_append, ih, Option.bind_some,
      height?_operator hoperator (by simp [Operator.arity])]
    simp [Operator.arity]

/-- **The stack never lacks operands**: when an operator of a tree is reached, they are there. -/
theorem arity_le_of_run (e : Infix) {before rest : Expr} {name : String}
    {stack : List Operand} {s t : σ} (htokens : e.tokens = before ++ .operator name :: rest)
    (hrun : run sizer bindings [] before s = .ok stack t) :
    ∃ operator, Operator.ofName? name = some operator ∧ operator.arity ≤ stack.length := by
  have hheight := e.height?_tokens 0
  rw [htokens] at hheight
  obtain ⟨operator, mid, hname, hmid, harity⟩ := exists_arity_le hheight
  have hstack : height? 0 before = some stack.length := height?_of_run hrun
  obtain rfl := Option.some.inj (hmid.symm.trans hstack)
  exact ⟨operator, hname, harity⟩

end Infix

end Wireform
