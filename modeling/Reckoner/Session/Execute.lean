import Reckoner.Benchmark
import Reckoner.Session.Entry
import Reckoner.Session.Line

/-!
# Executing a line

Every line but a blank one has a reply. Only the performance test can fail, and then the session
stays as it was.
-/

namespace Reckoner.Session

def minPrecision : Int := 0

def maxPrecision : Int := 10

/-- What a line shows. The average time of a performance test is not known here. -/
inductive Reply where
  | text (s : String)
  | timing
  deriving DecidableEq, Repr

/-- The text of a reply, given the time to report. -/
def Reply.render (time : String) : Reply → String
  | text s => s
  | timing => Benchmark.report time

def helpText : String :=
  let named (arity : Nat) := Registry.builtin.filter (·.2.arity == arity) |>.map Prod.fst
  "\n".intercalate [
    "Operators: + - * / ^ ! ( ) ,",
    "Functions: " ++ ", ".intercalate (named 1),
    "Binary functions: " ++ ", ".intercalate ((named 2).map (· ++ "(a,b)")),
    "Constants: " ++ ", ".intercalate (Constants.builtin.map Prod.fst),
    "Assign with name=expression; results are stored in '" ++ defaultName ++ "' by default",
    "Keywords: " ++ ", ".intercalate keywords]

def setPrecision (s : Session) : Option Int → String × Session
  | none => ("Invalid syntax (use precision=2 for example)", s)
  | some places =>
    if minPrecision ≤ places ∧ places ≤ maxPrecision then
      ("Precision set to " ++ toString places ++ " decimal places", { s with precision := places })
    else
      ("Precision must be between " ++ toString minPrecision ++ " and " ++ toString maxPrecision, s)

/-- A line `name = value` for each variable. -/
def listVariables (s : Session) : String :=
  if s.vars.isEmpty then "No variables defined"
  else
    "\n".intercalate (s.vars.toList.map fun (name, value) =>
      name ++ " = " ++ display value s.precision)

/-- The reply to a line, if it has one, and the session after it. -/
def execute (s : Session) (line : String) : Except EvalError (Option Reply × Session) :=
  match Line.ofString line with
  | .blank => .ok (none, s)
  | .clear => .ok (some (.text "History and variables cleared"), s.clear)
  | .help => .ok (some (.text helpText), s)
  | .precision places =>
    let (message, s') := s.setPrecision places
    .ok (some (.text message), s')
  | .test => (Benchmark.round s.vars Benchmark.expressions).map fun _ => (some .timing, s)
  | .print => .ok (some (.text s.listVariables), s)
  | .entry text =>
    let (result, s') := s.enter text
    .ok (some (.text result), s')

end Reckoner.Session
