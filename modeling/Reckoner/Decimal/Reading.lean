import Reckoner.Text.Blank
import Reckoner.Numeral

/-!
# Reading a double from a text of its own

Such a text, in a table or as a given value, takes more forms than a numeral inside an expression:
margins around it, a sign, the words for what is not finite, digits of any script and single
underscores between digits.
-/

namespace Reckoner.Double

/-- A digit of any script as the ASCII digit of its value; other characters stay. -/
def asciiDigit (c : Char) : Char :=
  match Text.digit? c with
  | some d => Char.ofNat ('0'.toNat + d)
  | none => c

/-- Removes the underscores; each has to stand between two digits. -/
def dropUnderscores? (afterDigit : Bool) : List Char → Option (List Char)
  | [] => some []
  | ['_'] => none
  | '_' :: c :: rest =>
    if afterDigit && c.isDigit then (dropUnderscores? true rest).map (c :: ·) else none
  | c :: rest => (dropUnderscores? c.isDigit rest).map (c :: ·)

/-- The double of an unsigned text, with the sign that stood before it. -/
def readMagnitude? (negative : Bool) (cs : List Char) : Option Float :=
  let word := String.ofList (Text.lowercase cs)
  if word == "inf" || word == "infinity" then some (infinity negative)
  else if word == "nan" then some nan
  else do
    let plain ← dropUnderscores? false (cs.map asciiDigit)
    let numeral ← Numeral.ofChars? plain
    return numeral.toDecimal.toDouble negative

/-- The double that a text spells. -/
def read? (s : String) : Option Float :=
  match Text.trimBy Text.isMargin s.toList with
  | '-' :: rest => readMagnitude? true rest
  | '+' :: rest => readMagnitude? false rest
  | rest => readMagnitude? false rest

end Reckoner.Double
