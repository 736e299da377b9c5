import Reckoner.Text.Blank
import Reckoner.Text.Digit

/-!
# Whole numbers as text

A whole number is a run of decimal digits of any script, with single underscores between digits,
an optional sign before it and margins around it.
-/

namespace Reckoner.Text

/-- The most digits that a whole number may have, where it is read and where it is written. -/
def maxIntegerDigits : Nat := 4300

/-- Whether a whole number has no more digits than that. -/
def IsShort (n : Int) : Prop := n.natAbs < Nat.pow 10 maxIntegerDigits

instance (n : Int) : Decidable (IsShort n) := Nat.decLt _ _

/-- Why a text is no whole number. -/
inductive IntegerError where
  | malformed
  | tooManyDigits (count : Nat)
  deriving DecidableEq, Repr

/-- A character of a run of digits. -/
def isDigitOrUnderscore (c : Char) : Bool := c == '_' || (digit? c).isSome

/-- The number of the run of digits in front, after which there may be margins only. Too long a run
is reported whatever follows it. -/
def readMagnitude (cs : List Char) : Except IntegerError Nat :=
  match groupedDigits? (cs.takeWhile isDigitOrUnderscore) with
  | none => .error .malformed
  | some digits =>
    if maxIntegerDigits < digits.length then .error (.tooManyDigits digits.length)
    else if (cs.dropWhile isDigitOrUnderscore).all isMargin then .ok (ofDigits digits)
    else .error .malformed

/-- The whole number that a text spells. -/
def readInt (s : List Char) : Except IntegerError Int :=
  match s.dropWhile isMargin with
  | '-' :: rest => (readMagnitude rest).map fun n => -(n : Int)
  | '+' :: rest => (readMagnitude rest).map fun n => (n : Int)
  | rest => (readMagnitude rest).map fun n => (n : Int)

/-- The whole number that a text spells, if it spells one. -/
def readInt? (s : List Char) : Option Int := (readInt s).toOption

end Reckoner.Text
