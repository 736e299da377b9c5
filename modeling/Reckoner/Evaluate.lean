import Reckoner.MathFunction
import Reckoner.Operator.Apply
import Reckoner.Postfix.Order
import Reckoner.Token.Tokenize

/-!
# Evaluating an expression

From the text of an expression and a variable table to its postfix order, and from there to its
value: values go onto a stack, and an operator or function replaces its operands by its value.
-/

namespace Reckoner

/-! ## Postfix sequences -/

namespace Postfix

/-- Takes operands from a stack, whose latest value is its first member, and lists them oldest
first. -/
def takeOperands? (count : Nat) (stack : List Float) : Option (List Float × List Float) :=
  let operands := (stack.take count).reverse
  if operands.length < count then none else some (operands, stack.drop count)

def reduce (registry : Registry) (stack : List Float) : Item → Except EvalError (List Float)
  | .number value => .ok (value :: stack)
  | .operator op =>
    match takeOperands? op.arity stack with
    | some (operands, rest) => (op.value operands).map (· :: rest)
    | none => .error .invalidExpression
  | .function name =>
    match registry.lookup name with
    | none => .error (.unknownName name)
    | some f =>
      match takeOperands? f.arity stack with
      | some (operands, rest) => .ok (f.apply operands :: rest)
      | none => .error .invalidExpression
  | .paren => .error .invalidExpression

/-- The one value that a sequence leaves. -/
def value (registry : Registry) (items : List Item) : Except EvalError Float := do
  match ← items.foldlM (reduce registry) [] with
  | [result] => return result
  | _ => throw .invalidExpression

end Postfix

/-! ## Expressions -/

/-- The postfix order of an expression. -/
def toPostfix (vars : Variables) (text : String) : Except EvalError (List Postfix.Item) := do
  Postfix.ofTokens { vars } (← tokenize reservedCharacters text)

/-- The postfix order of an expression as text. -/
def postfixText (vars : Variables) (text : String) : Except EvalError String :=
  (toPostfix vars text).map Postfix.render

def evaluate (vars : Variables) (text : String) : Except EvalError Float := do
  Postfix.value .builtin (← toPostfix vars text)

end Reckoner
