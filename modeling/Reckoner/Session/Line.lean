import Reckoner.Text.Integer

/-!
# What a line asks for

A line is a command word, with blanks around it and in any case, or an entry to evaluate. Line
breaks inside it do not count.
-/

namespace Reckoner.Session

inductive Line where
  | blank
  | clear
  | help
  /-- With what was read as a whole number after the equals sign. -/
  | precision (places : Option Int)
  | test
  | print
  /-- The line without any blank. -/
  | entry (text : List Char)
  deriving DecidableEq, Repr

/-- The start of a line that sets the precision. -/
def precisionStart : List Char := "precision=".toList

def Line.ofString (s : String) : Line :=
  let text := s.toList.filter fun c => c != '\n' && c != '\r'
  let word := Text.lowercase (Text.trim text)
  if word = [] then .blank
  else if word = "clear".toList then .clear
  else if word = "help".toList ∨ word = "about".toList then .help
  else if precisionStart.isPrefixOf word then
    .precision (Text.readInt? (word.drop precisionStart.length))
  else if word = "test".toList then .test
  else if word = "print".toList then .print
  else .entry (Text.removeBlanks text)

/-- Whether a line read at the prompt ends the session. -/
def isExit (s : String) : Bool :=
  let word := Text.lowercase (Text.trim s.toList)
  word == "exit".toList || word == "quit".toList

end Reckoner.Session
