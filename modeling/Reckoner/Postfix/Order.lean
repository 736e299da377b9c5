import Reckoner.Postfix.Basic
import Reckoner.Token.Basic
import Reckoner.Variables

/-!
# From tokens to postfix order

Each token is taken once, in order. Numbers go out at once; operators, functions and open
parentheses wait on a stack until what follows shows that their operands are complete.
-/

namespace Reckoner.Postfix

/-- Whether a pending item goes out before an operator that has just been read: a function always, a
parenthesis never, and an operator if it binds tighter, or equally tight in a tier that is taken
from left to right. -/
def goesBefore (op : Operator) : Item → Bool
  | .function _ => true
  | .operator top =>
    top.strength < op.strength || (top.strength == op.strength && !op.rightAssoc)
  | _ => false

/-- What one token sends out, and the pending items after it; the latest item is the first of the
list. -/
def step (scope : Scope) (pending : List Item) : Token → Except EvalError (List Item × List Item)
  | .number n => .ok ([.number n.value], pending)
  | .symbol .comma => .ok ([], pending)
  | .symbol .opening => .ok ([], .paren :: pending)
  | .symbol .closing =>
    match pending.dropWhile (!·.isParen) with
    | [] => .error .mismatchedParenthesis
    | _ :: outer => .ok (pending.takeWhile (!·.isParen), outer)
  | .symbol (.operator op) =>
    .ok (pending.takeWhile (goesBefore op), .operator op :: pending.dropWhile (goesBefore op))
  | .identifier name =>
    match scope.value? name with
    | some value => .ok ([.number value], pending)
    | none => .ok ([], .function name :: pending)

/-- All that the tokens send out, and the items still pending after them. -/
def run (scope : Scope) (pending : List Item) :
    List Token → Except EvalError (List Item × List Item)
  | [] => .ok ([], pending)
  | t :: rest => do
    let (now, next) ← step scope pending t
    let (later, last) ← run scope next rest
    return (now ++ later, last)

/-- The postfix order of the tokens. -/
def ofTokens (scope : Scope) (tokens : List Token) : Except EvalError (List Item) := do
  let (items, pending) ← run scope [] tokens
  if pending.any Item.isParen then throw .mismatchedParenthesis
  return items ++ pending

/-- Tokens may be taken in two lots. -/
theorem run_append (scope : Scope) (pending : List Item) (xs ys : List Token) :
    run scope pending (xs ++ ys) = do
      let (first, next) ← run scope pending xs
      let (second, last) ← run scope next ys
      return (first ++ second, last) := by
  induction xs generalizing pending with
  | nil =>
    simp only [List.nil_append, run, bind, Except.bind]
    cases run scope pending ys <;> rfl
  | cons t rest ih =>
    simp only [List.cons_append, run]
    cases h : step scope pending t with
    | error e => rfl
    | ok r =>
      simp only [bind, Except.bind]
      rw [ih]
      cases run scope r.2 rest with
      | error e => rfl
      | ok r' =>
        simp only [bind, Except.bind, pure, Except.pure]
        cases run scope r'.2 ys <;> simp

end Reckoner.Postfix
