import Reckoner.Text.Blank
import Reckoner.Token.Scan

/-!
# The tokens of an expression

A text is scanned without its blanks, and the signs in it are told apart. A plus directly before a
minus adds nothing and is dropped. Of the signs that are left, those that follow an operand are
binary operators and the others belong to the operand after them.
-/

namespace Reckoner

/-! ## Signs -/

namespace Token

/-- Drops each `+` that stands directly before a `-`. -/
def dropIdlePlus : List Token → List Token
  | .symbol (.operator .add) :: .symbol (.operator .sub) :: rest =>
    dropIdlePlus (.symbol (.operator .sub) :: rest)
  | t :: rest => t :: dropIdlePlus rest
  | [] => []

/-- A sign as it reads where an operand is still to come. -/
def asUnary : Token → Token
  | .symbol (.operator .add) => .symbol (.operator .pos)
  | .symbol (.operator .sub) => .symbol (.operator .neg)
  | t => t

/-- Tells unary signs from binary ones; `afterOperand` says whether an operand has just ended. -/
def classifySigns (afterOperand : Bool) : List Token → List Token
  | [] => []
  | t :: rest => (if afterOperand then t else t.asUnary) :: classifySigns t.endsOperand rest

end Token

/-! ## Texts -/

/-- The characters that no expression may hold. -/
def reservedCharacters : List Char := ['$']

/-- The tokens of a text: blanks do not count, and the first reserved character is reported. -/
def tokenize (reserved : List Char) (text : String) : Except EvalError (List Token) :=
  let cs := Text.removeBlanks text.toList
  if cs.isEmpty then .error .emptyInput
  else
    match cs.find? reserved.contains with
    | some c => .error (.invalidCharacter c)
    | none => .ok (Token.classifySigns false (Token.dropIdlePlus (Token.scan cs)))

end Reckoner
