import Reckoner.Proofs.Double.Packing
import Reckoner.Proofs.Expression.Basic
import Reckoner.Proofs.Postfix.Stack

/-!
# The value of a post-order

The post-order of an expression puts the value of the expression onto any stack, and where a
factorial has an operand that is not whole it ends with the one error for that
(`Expr.puts_postorder`).
-/

namespace Reckoner

open Postfix

namespace Postfix

variable {registry : Registry}

/-- The items put a value onto any stack, or end with the error of a factorial where there is
none. -/
def Puts (registry : Registry) (items : List Item) (result : Option Float) : Prop :=
  ∀ stack, items.foldlM (reduce registry) stack =
    result.elim (.error .nonIntegerFactorial) fun v => .ok (v :: stack)

theorem Puts.value {items : List Item} {result : Option Float} (h : Puts registry items result) :
    Postfix.value registry items = result.elim (.error .nonIntegerFactorial) .ok := by
  unfold Postfix.value
  rw [h]
  cases result <;> rfl

theorem Puts.number (x : Float) : Puts registry [.number x] (some x) := fun _ => rfl

theorem Puts.unary {items : List Item} {item : Item} {operand : Option Float}
    {f : Float → Option Float} (h : Puts registry items operand)
    (hitem : ∀ x stack, reduce registry (x :: stack) item =
      (f x).elim (.error .nonIntegerFactorial) fun v => .ok (v :: stack)) :
    Puts registry (items ++ [item]) (operand.bind f) := by
  intro stack
  rw [List.foldlM_append, h]
  cases operand with
  | none => rfl
  | some x =>
    simp only [Option.elim_some, bind, Except.bind, List.foldlM_cons, List.foldlM_nil,
      Option.bind_some]
    rw [hitem x stack]
    cases f x <;> rfl

theorem Puts.binary {xs ys : List Item} {item : Item} {left right : Option Float}
    {f : Float → Float → Float} (hl : Puts registry xs left) (hr : Puts registry ys right)
    (hitem : ∀ x y stack, reduce registry (y :: x :: stack) item =
      .ok (f x y :: stack)) :
    Puts registry (xs ++ ys ++ [item]) (left.bind fun x => right.bind fun y => some (f x y)) := by
  intro stack
  rw [List.foldlM_append, List.foldlM_append, hl]
  cases left with
  | none => rfl
  | some x =>
    simp only [Option.elim_some, bind, Except.bind, Option.bind_some]
    rw [hr]
    cases right with
    | none => rfl
    | some y =>
      simp only [Option.elim_some, List.foldlM_cons, List.foldlM_nil, Option.bind_some]
      rw [hitem x y stack]
      rfl

end Postfix

/-! ## Operators -/

theorem Sign.value_binary (s : Sign) (x y : Float) : s.binary.value [x, y] = .ok (s.join x y) := by
  cases s <;> rfl

theorem Sign.value_unary (s : Sign) (x : Float) : s.unary.value [x] = .ok (s.apply x) := by
  cases s <;> rfl

theorem Scaling.value_operator (o : Scaling) (x y : Float) :
    o.operator.value [x, y] = .ok (o.join x y) := by
  cases o <;> rfl

theorem Operator.value_fact (x : Float) : Operator.fact.value [x] =
    (if Double.isWhole x then Double.factorial? x else none).elim (.error .nonIntegerFactorial)
      .ok := by
  cases h : Double.isWhole x with
  | false => simp [Operator.value, h]
  | true =>
    obtain ⟨v, hv⟩ := Option.isSome_iff_exists.1 (Double.isSome_factorial? h)
    simp [Operator.value, Operator.result?, h, hv]

/-! ## Trees -/

/-- The functions of an expression are registered with the number of operands they are called
with. -/
def Vocabulary.Registered (words : Vocabulary) (registry : Registry) : Prop :=
  ∀ k name, words.function k name → ∃ f, registry.lookup name = some f ∧ f.arity = k

namespace Expr

variable {words : Vocabulary} {scope : Scope} {registry : Registry}

theorem puts_postorder (hwords : words.FitsIn scope) (hreg : words.Registered registry) {t : Tier}
    (e : Expr words t) : Puts registry (e.postorder scope) (e.value? scope registry) := by
  -- the item of a node comes last and takes what its operands have put on the stack
  induction e with
  | number n h => exact .number n.value
  | name x h =>
    obtain ⟨v, hv⟩ := hwords.operand x h
    rw [postorder, value?, Scope.resolve_eq, hv]
    exact .number v
  | group e ih | closed e ih | primary e ih | operand e ih | unsigned e ih | factor e ih
  | term e ih => exact ih
  | call name h e ih =>
    obtain ⟨f, hf, harity⟩ := hreg 1 name h
    have hcall : ∀ x, registry.call name [x] = f.apply [x] := by simp [Registry.call, hf]
    rw [postorder, Scope.resolve_eq, hwords.function 1 name h]
    refine ih.unary fun x stack => ?_
    rw [hcall]
    exact reduce_function hf [x] harity.symm stack
  | callPair name h first second ih₁ ih₂ =>
    obtain ⟨f, hf, harity⟩ := hreg 2 name h
    have hcall : ∀ x y, registry.call name [x, y] = f.apply [x, y] := by simp [Registry.call, hf]
    rw [postorder, Scope.resolve_eq, hwords.function 2 name h]
    refine ih₁.binary ih₂ fun x y stack => ?_
    rw [hcall]
    exact reduce_function hf [x, y] harity.symm stack
  | factorial e ih =>
    refine ih.unary fun x stack => (reduce_operator [x] rfl stack).trans ?_
    rw [Operator.value_fact]
    cases (if Double.isWhole x then Double.factorial? x else none) <;> rfl
  | power base exponent ih₁ ih₂ =>
    exact ih₁.binary ih₂ fun x y stack => reduce_operator [x, y] rfl stack
  | signed s e ih =>
    have harity : s.unary.arity = 1 := by cases s <;> rfl
    refine ih.unary fun x stack => (reduce_operator [x] harity.symm stack).trans ?_
    rw [s.value_unary]
    rfl
  | product left o right ih₁ ih₂ =>
    have harity : o.operator.arity = 2 := by cases o <;> rfl
    refine ih₁.binary ih₂ fun x y stack => (reduce_operator [x, y] harity.symm stack).trans ?_
    rw [o.value_operator]
    rfl
  | sum left s right ih₁ ih₂ =>
    have harity : s.binary.arity = 2 := by cases s <;> rfl
    refine ih₁.binary ih₂ fun x y stack => (reduce_operator [x, y] harity.symm stack).trans ?_
    rw [s.value_binary]
    rfl

end Expr

end Reckoner
