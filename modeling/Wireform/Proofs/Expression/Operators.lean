import Wireform.Expression.Evaluation
import Wireform.Proofs.Binary64.Operations

/-!
# What operators give

The operators of expressions have a meaning on what doubles stand for: the exact result, rounded
once. What they compute on words is that.

* `UnaryOperator.meaning`, `BinaryOperator.meaning`: the result that an operator should have.
* `UnaryOperator.apply_eq`, `BinaryOperator.apply_eq`: **it is the one that it has.**
-/

namespace Wireform

/-- What an operator of one number should give. Half-way values are rounded up, after one half has
been added to them. -/
def UnaryOperator.meaning : UnaryOperator → Binary64 → Binary64
  | .floor, x => x.nextWhole Int.floor
  | .round, x => (x.reading.sum (.finite false (1 / 2))).nearest.nextWhole Int.floor
  | .ceil, x => x.nextWhole Int.ceil

/-- What an operator of two numbers should give. -/
def BinaryOperator.meaning : BinaryOperator → Binary64 → Binary64 → Binary64
  | .times, x, y => (x.reading.product y.reading).nearest
  | .divide, x, y => (x.reading.quotient y.reading).nearest
  | .plus, x, y => (x.reading.sum y.reading).nearest
  | .minus, x, y => (x.reading.difference y.reading).nearest
  | .remainder, x, y => (x.reading.remainder y.reading).nearest
  | .min, x, y => x.lesser y
  | .max, x, y => x.greater y

/-- **An operator of one number gives what it should.** -/
theorem UnaryOperator.apply_eq (operator : UnaryOperator) : operator.apply = operator.meaning := by
  funext x
  cases operator with
  | floor => exact x.floor_eq
  | round => exact x.round_eq
  | ceil => exact x.ceil_eq

/-- **An operator of two numbers gives what it should.** -/
theorem BinaryOperator.apply_eq (operator : BinaryOperator) :
    operator.apply = operator.meaning := by
  funext x y
  cases operator with
  | times => exact x.mul_eq y
  | divide => exact x.div_eq y
  | plus => exact x.add_eq y
  | minus => exact x.sub_eq y
  | remainder => exact x.rem_eq y
  | min => exact x.min_eq y
  | max => exact x.max_eq y

end Wireform
