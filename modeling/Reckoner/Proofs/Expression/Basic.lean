import Reckoner.Evaluate

/-!
# Expressions

`Expr words t` is the grammar of expressions, a family of trees with one type for each tier:

* a sum is one term or more, taken from left to right;
* a term is one signed operand or more, multiplied or divided from left to right;
* a signed operand is a power after any number of signs;
* a power is one operand or, with an exponent, two, and its exponent is signed again;
* an operand is a primary before any number of factorials;
* a primary is closed or a call;
* a closed expression is a numeral, a name or a sum in parentheses.

A tree has its tokens (`Expr.tokens`), the list of its nodes with each operation after its operands
(`Expr.postorder`) and, where each factorial has a whole operand, a value (`Expr.value?`).
-/

namespace Reckoner

open Postfix (Item)

/-- A plus or a minus, between two operands or before one. -/
inductive Sign where
  | plus
  | minus
  deriving DecidableEq, Repr

namespace Sign

def binary : Sign → Operator
  | plus => .add
  | minus => .sub

def unary : Sign → Operator
  | plus => .pos
  | minus => .neg

def join : Sign → Float → Float → Float
  | plus, x, y => x + y
  | minus, x, y => x - y

def apply : Sign → Float → Float
  | plus, x => x
  | minus, x => -x

end Sign

/-- What stands between the factors of a term. -/
inductive Scaling where
  | times
  | divided
  deriving DecidableEq, Repr

namespace Scaling

def operator : Scaling → Operator
  | times => .mul
  | divided => .div

def join : Scaling → Float → Float → Float
  | times, x, y => x * y
  | divided, x, y => x / y

end Scaling

/-- The levels of the grammar, the loosest first. -/
inductive Tier where
  | sum
  | term
  | signed
  | power
  | factorial
  | primary
  | closed
  deriving DecidableEq, Repr

/-- The words that expressions may use. -/
structure Vocabulary where
  numeral : Numeral → Prop
  operand : String → Prop
  /-- The names that may be called with so many operands. -/
  function : (arity : Nat) → String → Prop

inductive Expr (words : Vocabulary) : Tier → Type where
  | number (n : Numeral) (h : words.numeral n) : Expr words .closed
  | name (x : String) (h : words.operand x) : Expr words .closed
  | group (e : Expr words .sum) : Expr words .closed
  | closed (e : Expr words .closed) : Expr words .primary
  | call (f : String) (h : words.function 1 f) (e : Expr words .sum) : Expr words .primary
  /-- The first operand of two has to be closed: a comma does not end what is pending. -/
  | callPair (f : String) (h : words.function 2 f) (first : Expr words .closed)
      (second : Expr words .sum) : Expr words .primary
  | primary (e : Expr words .primary) : Expr words .factorial
  | factorial (e : Expr words .factorial) : Expr words .factorial
  | operand (e : Expr words .factorial) : Expr words .power
  | power (base : Expr words .factorial) (exponent : Expr words .signed) : Expr words .power
  | unsigned (e : Expr words .power) : Expr words .signed
  | signed (s : Sign) (e : Expr words .signed) : Expr words .signed
  | factor (e : Expr words .signed) : Expr words .term
  | product (left : Expr words .term) (o : Scaling) (right : Expr words .signed) : Expr words .term
  | term (e : Expr words .term) : Expr words .sum
  | sum (left : Expr words .sum) (s : Sign) (right : Expr words .term) : Expr words .sum

/-- What an identifier is put out as: a variable comes first, then a constant, then a function. -/
def Scope.resolve (scope : Scope) (name : String) : Item :=
  match scope.vars[name]? with
  | some value => .number value
  | none =>
    match scope.constants.lookup name with
    | some value => .number value
    | none => .function name

theorem Scope.resolve_eq (scope : Scope) (name : String) :
    scope.resolve name = (scope.value? name).elim (.function name) .number := by
  unfold Scope.resolve Scope.value?
  cases scope.vars[name]? <;> cases scope.constants.lookup name <;> rfl

/-- The words that have their meaning in a scope: operands are bound, and functions are not. -/
def Scope.vocabulary (scope : Scope) : Vocabulary where
  numeral _ := True
  operand x := (scope.value? x).isSome
  function _ f := scope.value? f = none

/-- The words of an expression have their meaning in a scope. -/
structure Vocabulary.FitsIn (words : Vocabulary) (scope : Scope) : Prop where
  operand : ∀ x, words.operand x → ∃ v, scope.value? x = some v
  function : ∀ k f, words.function k f → scope.value? f = none

theorem Scope.vocabulary_fitsIn (scope : Scope) : scope.vocabulary.FitsIn scope where
  operand _ h := Option.isSome_iff_exists.1 h
  function _ _ h := h

/-- The value of a call; a name that is not registered has none. -/
def Registry.call (registry : Registry) (name : String) (operands : List Float) : Float :=
  (registry.lookup name).elim Double.nan (·.apply operands)

namespace Expr

variable {words : Vocabulary} {t : Tier}

/-- The tokens of an expression, where a sign before an operand is spelled as the given operator. -/
def spell (sign : Sign → Operator) {t : Tier} : Expr words t → List Token
  | number n _ => [.number n]
  | name x _ => [.identifier x]
  | group e => .symbol .opening :: e.spell sign ++ [.symbol .closing]
  | closed e | primary e | operand e | unsigned e | factor e | term e => e.spell sign
  | call f _ e => .identifier f :: (.symbol .opening :: e.spell sign ++ [.symbol .closing])
  | callPair f _ first second =>
    .identifier f :: (.symbol .opening ::
      (first.spell sign ++ .symbol .comma :: second.spell sign) ++ [.symbol .closing])
  | factorial e => e.spell sign ++ [.symbol (.operator .fact)]
  | power base exponent => base.spell sign ++ .symbol (.operator .pow) :: exponent.spell sign
  | signed s e => .symbol (.operator (sign s)) :: e.spell sign
  | product left o right => left.spell sign ++ .symbol (.operator o.operator) :: right.spell sign
  | sum left s right => left.spell sign ++ .symbol (.operator s.binary) :: right.spell sign

/-- The tokens of an expression. -/
def tokens (e : Expr words t) : List Token := e.spell Sign.unary

def postorder (scope : Scope) {t : Tier} : Expr words t → List Item
  | number n _ => [.number n.value]
  | name x _ => [scope.resolve x]
  | group e | closed e | primary e | operand e | unsigned e | factor e | term e => e.postorder scope
  | call f _ e => e.postorder scope ++ [scope.resolve f]
  | callPair f _ first second =>
    first.postorder scope ++ second.postorder scope ++ [scope.resolve f]
  | factorial e => e.postorder scope ++ [.operator .fact]
  | power base exponent => base.postorder scope ++ exponent.postorder scope ++ [.operator .pow]
  | signed s e => e.postorder scope ++ [.operator s.unary]
  | product left o right =>
    left.postorder scope ++ right.postorder scope ++ [.operator o.operator]
  | sum left s right => left.postorder scope ++ right.postorder scope ++ [.operator s.binary]

/-- The value of an expression, found from the values of its parts. There is none where the operand
of a factorial is not whole. -/
def value? (scope : Scope) (registry : Registry) {t : Tier} : Expr words t → Option Float
  | number n _ => some n.value
  | name x _ => scope.value? x
  | group e | closed e | primary e | operand e | unsigned e | factor e | term e =>
    e.value? scope registry
  | call f _ e => return registry.call f [← e.value? scope registry]
  | callPair f _ first second => do
    let x ← first.value? scope registry
    let y ← second.value? scope registry
    return registry.call f [x, y]
  | factorial e => do
    let x ← e.value? scope registry
    if Double.isWhole x then Double.factorial? x else none
  | power base exponent => do
    let x ← base.value? scope registry
    let y ← exponent.value? scope registry
    return Double.power x y
  | signed s e => return s.apply (← e.value? scope registry)
  | product left o right => do
    let x ← left.value? scope registry
    let y ← right.value? scope registry
    return o.join x y
  | sum left s right => do
    let x ← left.value? scope registry
    let y ← right.value? scope registry
    return s.join x y

end Expr

end Reckoner
