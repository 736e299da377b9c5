import Reckoner.Variables

/-!
# Sessions

A session holds the variables, the places shown of a result and the history of the lines entered,
each with a number.
-/

namespace Reckoner

/-- A line of the history: its number, the expression, and the result or error shown for it. -/
structure Entry where
  id : Int
  expression : String
  result : String
  deriving DecidableEq, Repr

/-- Places shown, unless the session is told otherwise. -/
def Session.defaultPrecision : Int := 6

structure Session where
  vars : Variables := ∅
  precision : Int := Session.defaultPrecision
  /-- The oldest entry first. -/
  history : List Entry := []
  /-- The number of the next entry. -/
  nextId : Int := 1

namespace Session

/-- The number after the largest of a history; numbering starts at one. -/
def idAfter (history : List Entry) : Int := ((history.map Entry.id).max?).getD 0 + 1

/-- Takes over a saved history and saved variables. Variables that are not among the saved ones
stay. -/
def restore (s : Session) (history : List Entry) (vars : Variables) : Session :=
  { s with
    history
    vars := s.vars ∪ vars
    nextId := idAfter history }

/-- Forgets history and variables. -/
def clear (s : Session) : Session :=
  { s with vars := ∅, history := [], nextId := 1 }

/-- Adds an entry under the next number. -/
def record (s : Session) (expression result : String) : Session :=
  { s with
    history := s.history ++ [⟨s.nextId, expression, result⟩]
    nextId := s.nextId + 1 }

@[simp] theorem history_record (s : Session) (expression result : String) :
    (s.record expression result).history = s.history ++ [⟨s.nextId, expression, result⟩] := rfl

@[simp] theorem nextId_record (s : Session) (expression result : String) :
    (s.record expression result).nextId = s.nextId + 1 := rfl

@[simp] theorem vars_record (s : Session) (expression result : String) :
    (s.record expression result).vars = s.vars := rfl

@[simp] theorem precision_record (s : Session) (expression result : String) :
    (s.record expression result).precision = s.precision := rfl

end Session

end Reckoner
