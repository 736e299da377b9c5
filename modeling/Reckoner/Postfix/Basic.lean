import Reckoner.Decimal.Layout
import Reckoner.Operator.Basic

/-!
# Postfix sequences

In a postfix sequence each operator and function follows its operands. The same items, other than
numbers, wait on the stack of pending items while an expression is put into that order.
-/

namespace Reckoner.Postfix

inductive Item where
  | number (value : Float)
  | operator (op : Operator)
  | function (name : String)
  /-- An open parenthesis; it is pending only, and no part of an order. -/
  | paren
  deriving DecidableEq

namespace Item

def text : Item → String
  | number value => Double.exactText value
  | operator op => op.text
  | function name => name
  | paren => "("

def isParen : Item → Bool
  | paren => true
  | _ => false

end Item

/-- The items with a space between them. -/
def render (items : List Item) : String :=
  " ".intercalate (items.map Item.text)

end Reckoner.Postfix
