import Reckoner.Evaluate
import Reckoner.Session.Basic

/-!
# Entries

An entry is an expression, or `name=expression`. Its value goes to the name, or to a default name;
what is shown is recorded, be it a result or an error.

A name may be assigned to if an expression can refer to it: it is no function, keyword or constant,
it holds no symbol, point or reserved character, and it does not read as a numeral or as the start
of one. A result is rounded to the places of the session and written without needless digits; zero
has no sign.
-/

namespace Reckoner.Session

/-! ## Names -/

/-- The words that a name may not take. -/
def keywords : List String := ["clear", "precision", "help", "about", "test", "print"]

def forbiddenCharacters : String := "+-*/!^(),.$"

def isValidName (functions : List String) (name : String) : Bool :=
  name != "" && !functions.contains name && !keywords.contains name &&
    (Constants.builtin.lookup name).isNone &&
    !name.toList.any forbiddenCharacters.toList.contains &&
    (Numeral.ofChars? name.toList).isNone && !awaitsExponent name.toList

/-! ## Results -/

def display (x : Float) (precision : Int) : String :=
  match Double.parts x with
  | .nan => "NaN"
  | .infinite negative => if negative then "-Infinity" else "Infinity"
  | .finite _ _ =>
    let rounded := Double.roundPlaces x precision
    Decimal.Layout.display.text (if rounded == 0 then 0 else rounded)

/-! ## Entering -/

/-- The variable that takes a value with no name. -/
def defaultName : String := "ans"

inductive EntryError where
  | severalEquals
  | emptyName
  | invalidName
  | evaluation (e : EvalError)
  deriving DecidableEq, Repr

def EntryError.message : EntryError → String
  | severalEquals => "Incorrect syntax (use only one '=')"
  | emptyName => "Incorrect syntax (variable name empty)"
  | invalidName => "Invalid name for variable"
  | evaluation e => e.message

/-- The name that an entry assigns to, and its expression. -/
def splitEntry (text : List Char) : Except EntryError (String × String) :=
  match text.dropWhile (· != '=') with
  | [] => .ok (defaultName, String.ofList text)
  | _ :: expression =>
    let name := text.takeWhile (· != '=')
    if expression.contains '=' then .error .severalEquals
    else if name.isEmpty then .error .emptyName
    else .ok (String.ofList name, String.ofList expression)

/-- The name and the value of an entry. -/
def assignment (vars : Variables) (text : List Char) :
    Except EntryError (String × Float) := do
  let (name, expression) ← splitEntry text
  if !isValidName (Registry.builtin.map Prod.fst) name then throw .invalidName
  let value ← (evaluate vars expression).mapError .evaluation
  return (name, value)

/-- What is shown for an entry, and the session after it. -/
def enter (s : Session) (text : List Char) : String × Session :=
  match assignment s.vars text with
  | .ok (name, value) =>
    let result := display value s.precision
    (result, { s with vars := s.vars.insert name value }.record
      (String.ofList text) result)
  | .error e => (e.message, s.record (String.ofList text) e.message)

end Reckoner.Session
