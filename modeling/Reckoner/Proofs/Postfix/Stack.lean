import Reckoner.Evaluate

/-!
# The values below

A sequence that has a value of its own has it on top of any stack (`foldlM_reduce_of_value`): it
neither reads nor loses the values below. Such a sequence may stand in the place of its value
(`value_replace`).
-/

namespace Reckoner.Registry

theorem mem_of_lookup {registry : Registry} {name : String} {f : MathFunction}
    (h : registry.lookup name = some f) : (name, f) ∈ registry := by
  obtain ⟨before, after, rfl, -⟩ := List.lookup_eq_some_iff.1 h
  exact List.mem_append_right _ List.mem_cons_self

theorem arity_pos {name : String} {f : MathFunction} (h : builtin.lookup name = some f) :
    0 < f.arity := by
  have hall : ∀ entry ∈ builtin, 0 < entry.2.arity := by decide
  exact hall _ (mem_of_lookup h)

end Reckoner.Registry

namespace Reckoner.Postfix

variable {registry : Registry}

theorem takeOperands?_of_lt {count : Nat} {stack : List Float} (h : stack.length < count) :
    takeOperands? count stack = none := by
  simp only [takeOperands?, List.length_reverse, List.length_take]
  rw [if_pos (by omega)]

theorem takeOperands?_append {count : Nat} {stack operands rest : List Float}
    (h : takeOperands? count stack = some (operands, rest)) (below : List Float) :
    takeOperands? count (stack ++ below) = some (operands, rest ++ below) := by
  simp only [takeOperands?, List.length_reverse, List.length_take] at h ⊢
  split at h
  · cases h
  · rename_i hc
    have hle : count ≤ stack.length := by omega
    cases h
    rw [List.take_append_of_le_length hle, List.drop_append_of_le_length hle, List.length_append,
      if_neg (by omega)]

/-- The operands are on top of the stack, the latest first. -/
theorem takeOperands?_reverse (operands below : List Float) :
    takeOperands? operands.length (operands.reverse ++ below) = some (operands, below) := by
  have hlen : operands.length = operands.reverse.length := (List.length_reverse ..).symm
  simp only [takeOperands?]
  rw [hlen, List.take_left, List.drop_left, List.reverse_reverse]
  simp

theorem reduce_operator {op : Operator} (operands : List Float) (h : operands.length = op.arity)
    (below : List Float) : reduce registry (operands.reverse ++ below) (.operator op) =
      (op.value operands).map (· :: below) := by
  rw [reduce, ← h, takeOperands?_reverse]

theorem reduce_function {name : String} {f : MathFunction} (hf : registry.lookup name = some f)
    (operands : List Float) (h : operands.length = f.arity) (below : List Float) :
    reduce registry (operands.reverse ++ below) (.function name) =
      .ok (f.apply operands :: below) := by
  rw [reduce, hf]
  simp only
  rw [← h, takeOperands?_reverse]

theorem reduce_append {stack next : List Float} {item : Item}
    (h : reduce registry stack item = .ok next) (below : List Float) :
    reduce registry (stack ++ below) item = .ok (next ++ below) := by
  cases item with
  | number value => cases h; rfl
  | paren => cases h
  | operator op =>
    simp only [reduce] at h ⊢
    cases ht : takeOperands? op.arity stack with
    | none => simp [ht] at h
    | some r =>
      obtain ⟨operands, rest⟩ := r
      rw [takeOperands?_append ht below]
      cases hv : op.value operands with
      | error e => simp [ht, hv, Except.map] at h
      | ok value =>
        simp only [ht, hv, Except.map, Except.ok.injEq] at h ⊢
        rw [← h, List.cons_append]
  | function name =>
    simp only [reduce] at h ⊢
    cases hl : registry.lookup name with
    | none => simp [hl] at h
    | some f =>
      cases ht : takeOperands? f.arity stack with
      | none => simp [hl, ht] at h
      | some r =>
        obtain ⟨operands, rest⟩ := r
        simp only [hl, ht, Except.ok.injEq] at h
        simp only [takeOperands?_append ht below, ← h, List.cons_append]

theorem foldlM_reduce_append {stack next : List Float} {items : List Item}
    (h : items.foldlM (reduce registry) stack = .ok next) (below : List Float) :
    items.foldlM (reduce registry) (stack ++ below) = .ok (next ++ below) := by
  induction items generalizing stack with
  | nil => cases h; rfl
  | cons item rest ih =>
    rw [List.foldlM_cons] at h ⊢
    cases hr : reduce registry stack item with
    | error e => simp [hr, bind, Except.bind] at h
    | ok between =>
      rw [hr] at h
      rw [reduce_append hr below]
      exact ih h

theorem value_eq_ok_iff {items : List Item} {v : Float} :
    value registry items = .ok v ↔ items.foldlM (reduce registry) [] = .ok [v] := by
  unfold value
  cases h : items.foldlM (reduce registry) [] with
  | error e => simp [bind, Except.bind]
  | ok stack =>
    match stack with
    | [] => simp [bind, Except.bind, throw, throwThe, MonadExceptOf.throw]
    | [x] => simp [bind, Except.bind, pure, Except.pure]
    | _ :: _ :: _ => simp [bind, Except.bind, throw, throwThe, MonadExceptOf.throw]

/-- What has a value puts it onto any stack. -/
theorem foldlM_reduce_of_value {items : List Item} {v : Float} (h : value registry items = .ok v)
    (stack : List Float) : items.foldlM (reduce registry) stack = .ok (v :: stack) :=
  foldlM_reduce_append (value_eq_ok_iff.1 h) stack

/-- Two parts that do the same to every stack may stand for each other. -/
theorem value_replace {mid mid' : List Item}
    (h : ∀ stack, mid.foldlM (reduce registry) stack = mid'.foldlM (reduce registry) stack)
    (left right : List Item) :
    value registry (left ++ mid ++ right) = value registry (left ++ mid' ++ right) := by
  unfold value
  simp only [List.foldlM_append, h]

end Reckoner.Postfix
