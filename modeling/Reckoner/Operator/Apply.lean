import Reckoner.Double.Whole
import Reckoner.Operator.Basic

/-!
# Applying operators

Operands are listed oldest first. Division by zero, overflow and powers outside the real numbers
give an infinity or the value that is not a number; none of them is an error.
-/

namespace Reckoner

namespace Double

/-- The power of a double. The exponents minus one, one half and two stand for the reciprocal, the
square root and the square, each rounded once. -/
def power (x y : Float) : Float :=
  if y == -1 then 1 / x
  else if y == 0.5 then x.sqrt
  else if y == 2 then x * x
  else x.pow y

end Double

namespace Operator

/-- The value of an operator at its operands. There is none for a wrong number of operands and for
the factorial of what is not a number; a factorial takes the whole part of its operand. -/
def result? : Operator → List Float → Option Float
  | add, [x, y] => some (x + y)
  | sub, [x, y] => some (x - y)
  | mul, [x, y] => some (x * y)
  | div, [x, y] => some (x / y)
  | pow, [x, y] => some (Double.power x y)
  | fact, [x] => Double.factorial? x
  | pos, [x] => some x
  | neg, [x] => some (-x)
  | _, _ => none

/-- The value of an operator inside an expression, where a factorial has to have a whole operand. -/
def value (op : Operator) (operands : List Float) : Except EvalError Float :=
  if op = fact && !operands.all Double.isWhole then .error .nonIntegerFactorial
  else (op.result? operands).elim (.error .invalidExpression) .ok

end Operator

end Reckoner
