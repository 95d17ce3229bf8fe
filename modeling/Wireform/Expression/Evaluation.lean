import Wireform.Expression.Substitution
import Wireform.Binary64.Arithmetic
import Wireform.CompileError
import Wireform.Size

/-!
# Evaluation of expressions

Tokens are worked off from the left on a stack of operands. Exactly one operand
must be left. The size of a type is asked of the surroundings, which may have to
compile the type first.

* `evaluate`: the operand that an expression leaves.
* `Operand.toSize`: an operand as a count.
-/

namespace Wireform

/-- The operators that take one number. -/
inductive UnaryOperator where
  | floor | round | ceil
deriving DecidableEq

/-- The operators that take two numbers. -/
inductive BinaryOperator where
  | times | divide | plus | minus | remainder | min | max
deriving DecidableEq

/-- The operators of expressions. -/
inductive Operator where
  | unary (operator : UnaryOperator)
  | binary (operator : BinaryOperator)
  | sizeof
deriving DecidableEq

/-- The result of an operator of one number. -/
def UnaryOperator.apply : UnaryOperator → Binary64 → Binary64
  | .floor, a => a.floor
  | .round, a => a.round
  | .ceil, a => a.ceil

/-- The result of an operator of two numbers. -/
def BinaryOperator.apply : BinaryOperator → Binary64 → Binary64 → Binary64
  | .times, a, b => a.mul b
  | .divide, a, b => a.div b
  | .plus, a, b => a.add b
  | .minus, a, b => a.sub b
  | .remainder, a, b => a.rem b
  | .min, a, b => a.min b
  | .max, a, b => a.max b

/-- The operator with a given name. -/
def Operator.ofName? (name : String) : Option Operator :=
  match name with
  | "*" | "asterisk" => some (.binary .times)
  | "/" | "slash" => some (.binary .divide)
  | "+" | "plus" => some (.binary .plus)
  | "-" | "minus" => some (.binary .minus)
  | "%" | "percent" => some (.binary .remainder)
  | "floor" => some (.unary .floor)
  | "round" => some (.unary .round)
  | "ceil" => some (.unary .ceil)
  | "min" => some (.binary .min)
  | "max" => some (.binary .max)
  | "sizeof" => some .sizeof
  | _ => none

/-- The number of operands that an operator takes. -/
def Operator.arity : Operator → Nat
  | .binary _ => 2
  | .unary _ | .sizeof => 1

namespace Expression

variable {σ : Type}

/-- The number that an operand is. -/
def number (operator : String) : Operand → Compiling σ Binary64
  | .constant (.number value) => pure value
  | _ => .fail (.wanted operator .number)

/-- The size in bytes of the type that an operand is. -/
def sizeOfOperand (sizeOf : TypeRef → Compiling σ Size) (operator : String) :
    Operand → Compiling σ Operand
  | .type reference => do
    match ← sizeOf reference with
    | .bounded bytes => pure (.number (.ofNat bytes))
    | .unbounded => .fail (.unboundedSizeof reference)
  | .constant _ => .fail (.wanted operator .type)

/-- Applies an operator to the operands on top of the stack, the last one being the head. -/
def applyOperator (sizeOf : TypeRef → Compiling σ Size) (name : String) (operator : Operator)
    (stack : List Operand) : Compiling σ (List Operand) :=
  match operator, stack with
  | .binary op, b :: a :: rest => do
    let a ← number name a
    let b ← number name b
    return .number (op.apply a b) :: rest
  | .unary op, a :: rest => do
    let a ← number name a
    return .number (op.apply a) :: rest
  | .sizeof, a :: rest => do
    let size ← sizeOfOperand sizeOf name a
    return size :: rest
  | operator, stack => .fail (.arity name operator.arity stack.length)

/-- Works off one token. -/
def step (sizeOf : TypeRef → Compiling σ Size) (bindings : Bindings) (stack : List Operand) :
    Token → Compiling σ (List Operand)
  | .number value => pure (.number value :: stack)
  | .string text => pure (.string text :: stack)
  | .type reference => pure (.type (reference.substitute bindings) :: stack)
  | .parameter name =>
    match bindings.get? name with
    | some bound => pure (bound :: stack)
    | none => .fail (.undefinedType name)
  | .operator name =>
    match Operator.ofName? name with
    | some operator => applyOperator sizeOf name operator stack
    | none => .fail (.unknownOperator name)

/-- Works off tokens from the left. -/
def run (sizeOf : TypeRef → Compiling σ Size) (bindings : Bindings) :
    List Operand → Expr → Compiling σ (List Operand)
  | stack, [] => pure stack
  | stack, token :: rest => do
    let stack ← step sizeOf bindings stack token
    run sizeOf bindings stack rest

/-- The operand that an expression leaves. -/
def evaluate (sizeOf : TypeRef → Compiling σ Size) (bindings : Bindings) (expr : Expr) :
    Compiling σ Operand := do
  match ← run sizeOf bindings [] expr with
  | [result] => pure result
  | stack => .fail (.resultShape stack.length)

/-- The constant that an expression without parameters and sizes stands for. -/
def fold? (expr : Expr) : Option Constant :=
  match (evaluate (σ := Unit) (fun r => .fail (.unboundedSizeof r)) [] expr).run () with
  | .ok (.constant value) _ => some value
  | _ => none

end Expression

/-- An operand as a count: a whole number from zero to `2 ^ 32 - 1`. -/
def Operand.toSize (operand : Operand) (subject : String) : Except CompileError Nat :=
  match operand with
  | .constant (.number value) =>
    if value.isWhole ∧ 0 ≤ value.truncate ∧ value.truncate < 4294967296 then
      .ok value.truncate.toNat
    else .error (.wanted subject .size)
  | _ => .error (.wanted subject .size)

end Wireform
