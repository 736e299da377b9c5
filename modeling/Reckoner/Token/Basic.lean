import Reckoner.Numeral
import Reckoner.Operator.Basic

/-!
# Tokens

The words of an expression: numerals, symbols and identifiers.
-/

namespace Reckoner

inductive Symbol where
  | operator (op : Operator)
  | comma
  | opening
  | closing
  deriving DecidableEq, Repr

namespace Symbol

/-- The symbol that a character stands for; a sign counts as the binary operator. -/
def ofChar? : Char → Option Symbol
  | '+' => some (.operator .add)
  | '-' => some (.operator .sub)
  | '*' => some (.operator .mul)
  | '/' => some (.operator .div)
  | '^' => some (.operator .pow)
  | '!' => some (.operator .fact)
  | ',' => some .comma
  | '(' => some .opening
  | ')' => some .closing
  | _ => none

def text : Symbol → String
  | operator op => op.text
  | comma => ","
  | opening => "("
  | closing => ")"

/-- Whether an operand is over with this symbol, so that a sign after it is a binary operator. -/
def endsOperand : Symbol → Bool
  | closing | operator .fact => true
  | _ => false

theorem text_of_ofChar? {c : Char} {s : Symbol} (h : ofChar? c = some s) :
    s.text = String.ofList [c] := by
  unfold ofChar? at h
  split at h <;> cases h <;> rfl

end Symbol

def isSymbol (c : Char) : Bool := (Symbol.ofChar? c).isSome

inductive Token where
  | number (n : Numeral)
  | symbol (s : Symbol)
  | identifier (name : String)
  deriving DecidableEq, Repr

namespace Token

def text : Token → String
  | number n => n.text
  | symbol s => s.text
  | identifier name => name

def endsOperand : Token → Bool
  | symbol s => s.endsOperand
  | number _ | identifier _ => true

end Token

end Reckoner
