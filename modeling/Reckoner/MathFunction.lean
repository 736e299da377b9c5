import Reckoner.Double.Whole
import Reckoner.Double.Remainder

/-!
# Functions

The functions that an expression may call. Domain errors give the value that is not a number.
-/

namespace Reckoner

structure MathFunction where
  arity : Nat
  /-- Called with `arity` operands, oldest first. -/
  apply : List Float → Float

namespace MathFunction

def unary (f : Float → Float) : MathFunction where
  arity := 1
  apply
    | [x] => f x
    | _ => Double.nan

def binary (f : Float → Float → Float) : MathFunction where
  arity := 2
  apply
    | [x, y] => f x y
    | _ => Double.nan

end MathFunction

namespace Double

/-- The logarithm of `x` to a base. -/
def logarithm (x base : Float) : Float := x.log / base.log

/-- One with the sign of `x`; positive zero for both zeros. -/
def sign (x : Float) : Float :=
  if 0 < x then 1 else if x < 0 then -1 else if x == 0 then 0 else nan

/-- The most decimal places, before or after the point, that `round` takes into account. -/
def maxRoundPlaces : Int := 15

/-- Rounds `x` to the whole number of places nearest to `places`. -/
def round (x places : Float) : Float :=
  match toInt? (roundEven places) with
  | some n => roundPlaces x (max (-maxRoundPlaces) (min n maxRoundPlaces))
  | none => nan

end Double

/-- Functions by name. -/
abbrev Registry := List (String × MathFunction)

open MathFunction in
/-- The functions of the calculator. -/
def Registry.builtin : Registry :=
  [("sin", unary Float.sin),
   ("cos", unary Float.cos),
   ("tan", unary Float.tan),
   ("csc", unary fun x => 1 / x.sin),
   ("sec", unary fun x => 1 / x.cos),
   ("cot", unary fun x => 1 / x.tan),
   ("sinh", unary Float.sinh),
   ("cosh", unary Float.cosh),
   ("tanh", unary Float.tanh),
   ("asin", unary Float.asin),
   ("acos", unary Float.acos),
   ("atan", unary Float.atan),
   ("exp", unary Float.exp),
   ("ln", unary Float.log),
   ("abs", unary Float.abs),
   ("sqrt", unary Float.sqrt),
   ("fix", unary Double.trunc),
   ("sign", unary Double.sign),
   ("ceiling", unary Double.ceiling),
   ("floor", unary Double.floor),
   ("atan2", binary Float.atan2),
   ("log", binary Double.logarithm),
   ("round", binary Double.round),
   ("mod", binary Double.remainder)]

end Reckoner
