import Reckoner.MathFunction
import Reckoner.Postfix.Basic

/-!
# Stack depth

How many values a postfix sequence leaves, found from the arities alone.
-/

namespace Reckoner.Postfix

/-- The operands that an item takes; a name that is not registered counts as a unary function. -/
def Item.arity (registry : Registry) : Item → Nat
  | number _ => 0
  | operator op => op.arity
  | function name => ((registry.lookup name).map MathFunction.arity).getD 1
  | paren => 1

/-- The depth after one more item, or nothing if it lacks operands. -/
def deepen (registry : Registry) (depth : Nat) (item : Item) : Option Nat :=
  if depth < item.arity registry then none else some (depth - item.arity registry + 1)

/-- The number of values left at the end, or nothing if some item lacks operands. -/
def depth? (registry : Registry) (items : List Item) : Option Nat :=
  items.foldlM (deepen registry) 0

/-- A complete sequence leaves one value. -/
def isComplete (registry : Registry) (items : List Item) : Bool :=
  depth? registry items == some 1

end Reckoner.Postfix
