import Reckoner.Evaluate

/-!
# The performance test

The test evaluates a list of expressions a number of times over. Its outcome, apart from the time it
takes, is that of one round, since evaluating changes nothing.
-/

namespace Reckoner.Benchmark

def defaultIterations : Nat := 2000

def expressions : List String := [
  "1+5-4*8/2+9-8/7+9*8*7*6*5*4*3*2*1*3.1415926*0.001-2.788*698.258774125/5.2569874+1",
  "ln(ln(ln(sqrt(3.25648)+59874/sqrt(45874))))*sin(ln(99/7))^2+fix(ln(77))!",
  "tanh(cosh(8))*sin(9)+1-88/7+exp(4)+e*e*e/(e*e*e)+9874562.2547854^0.2",
  "sin(asin(0.5))+cos(acos(0.5))+asin(sin(0.5))+acos(cos(0.5))+tan(atan(0.9))",
  "fix(round(1.11,2))*4.99*0.2*5+5-9-9/8-9/7-9/6-9/5-9/4-9/3-9/2-9/1+sin(3.1415926)^2"]

inductive Failure where
  | negativeIterations
  | evaluation (e : EvalError)
  deriving DecidableEq, Repr

def Failure.message : Failure → String
  | negativeIterations => "negative dimensions are not allowed"
  | evaluation e => e.message

/-- One round: every expression in turn, up to the first that has no value. -/
def round (vars : Variables) (expressions : List String) : Except EvalError Unit :=
  expressions.forM fun text => (evaluate vars text).map fun _ => ()

/-- The rounds of a test; none asked for, or zero, means the default. -/
def rounds (iterations : Option Int) : Int :=
  match iterations with
  | none | some 0 => defaultIterations
  | some n => n

/-- How the test ends. An empty list stands for the expressions above. -/
def run (vars : Variables) (iterations : Option Int) (chosen : List String) :
    Except Failure Unit :=
  if rounds iterations < 0 then .error .negativeIterations
  else
    (round vars (if chosen.isEmpty then expressions else chosen)).mapError .evaluation

/-- The average time of an evaluation in milliseconds, to four places. -/
def timeText (nanoseconds evaluations : Nat) : String :=
  let units := nanoseconds / (100 * evaluations)
  let places := toString (units % 10000)
  toString (units / 10000) ++ "." ++ "".pushn '0' (4 - places.length) ++ places

/-- The line that reports the average time of an evaluation. -/
def report (time : String) : String :=
  "Performance test result: " ++ time ++ " milliseconds on average for each evaluation"

end Reckoner.Benchmark
