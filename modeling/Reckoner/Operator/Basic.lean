/-!
# Operators

The eight operators, how many operands each takes and how tightly it binds, and the reasons why an
expression made of them has no value.
-/

namespace Reckoner

inductive Operator where
  | add
  | sub
  | mul
  | div
  | pow
  | fact
  /-- The sign `+` before an operand. -/
  | pos
  /-- The sign `-` before an operand. -/
  | neg
  deriving DecidableEq, Repr

namespace Operator

/-- All operators, the tightest first. -/
def all : List Operator := [fact, pow, pos, neg, mul, div, add, sub]

def text : Operator → String
  | add => "+"
  | sub => "-"
  | mul => "*"
  | div => "/"
  | pow => "^"
  | fact => "!"
  | pos => "u+"
  | neg => "u-"

def arity : Operator → Nat
  | fact | pos | neg => 1
  | add | sub | mul | div | pow => 2

/-- The tier of an operator; the tightest is 1. Signs share a tier with the power, so that `-3^2` is
`-(3^2)`. -/
def strength : Operator → Nat
  | fact => 1
  | pow | pos | neg => 2
  | mul | div => 3
  | add | sub => 4

/-- Whether operators of this tier are taken from right to left. -/
def rightAssoc : Operator → Bool
  | pow | pos | neg => true
  | fact | mul | div | add | sub => false

theorem arity_pos (op : Operator) : 0 < op.arity := by cases op <;> decide

/-- Associativity belongs to the tier. -/
theorem rightAssoc_iff (op : Operator) : op.rightAssoc = true ↔ op.strength = 2 := by
  cases op <;> decide

end Operator

/-- Why an expression has no value. -/
inductive EvalError where
  | emptyInput
  | invalidCharacter (c : Char)
  | mismatchedParenthesis
  /-- Too few operands, or values left over. -/
  | invalidExpression
  | unknownName (name : String)
  | nonIntegerFactorial
  deriving DecidableEq, Repr

def EvalError.message : EvalError → String
  | emptyInput => "Input empty"
  | invalidCharacter c => "Invalid character '" ++ String.ofList [c] ++ "'"
  | mismatchedParenthesis => "Mismatched parenthesis"
  | invalidExpression => "Invalid expression"
  | unknownName name => "Unknown variable or function (" ++ name ++ ")"
  | nonIntegerFactorial => "Factorial (!) works only with integers"

end Reckoner
