import Reckoner.Proofs.Postfix.Tree

/-!
# Depth and value

The depth of a sequence is found from arities alone, its value from the values themselves. Both runs
go over the items side by side: as long as there are values, the depth is how many, and both lack
operands at the same item (`outcome_foldlM`). They part only where the value ends first, at a
function that is not registered or at the factorial of a fraction. So the depth tells which
sequences can have a value, and which cannot be for lack of operands (`depth_predicts_value`).
-/

namespace Reckoner.Postfix

variable {registry : Registry}

/-! ## Depths -/

theorem deepen_eq_some_iff {depth next : Nat} {item : Item} :
    deepen registry depth item = some next ↔
      item.arity registry ≤ depth ∧ next + item.arity registry = depth + 1 := by
  unfold deepen
  split <;> simp <;> omega

/-- The depth counts what each item adds and takes. -/
theorem depth_add_arities {items : List Item} {depth last : Nat}
    (h : items.foldlM (deepen registry) depth = some last) :
    last + (items.map (Item.arity registry)).sum = depth + items.length := by
  induction items generalizing depth with
  | nil =>
    cases h
    rfl
  | cons item rest ih =>
    rw [List.foldlM_cons] at h
    obtain ⟨next, hnext, hrest⟩ := Option.bind_eq_some_iff.1 h
    have harity := (deepen_eq_some_iff.1 hnext).2
    have hsum := ih hrest
    rw [List.map_cons, List.sum_cons, List.length_cons]
    omega

/-! ## Both runs side by side -/

/-- How a run over items leaves the depth and the values. -/
inductive Outcome (registry : Registry) (items : List Item) :
    Option Nat → Except EvalError (List Float) → Prop
  | values {stack : List Float} (h : ∀ item ∈ items, item.IsRegistered registry) :
      Outcome registry items (some stack.length) (.ok stack)
  | lacking : Outcome registry items none (.error .invalidExpression)
  | paren {depth : Option Nat} (h : .paren ∈ items) :
      Outcome registry items depth (.error .invalidExpression)
  | unknown {depth : Option Nat} {name : String} (hname : .function name ∈ items)
      (h : registry.lookup name = none) :
      Outcome registry items depth (.error (.unknownName name))
  | fraction {depth : Option Nat} (h : .operator .fact ∈ items) :
      Outcome registry items depth (.error .nonIntegerFactorial)

theorem Outcome.cons {items : List Item} {depth : Option Nat}
    {result : Except EvalError (List Float)} (h : Outcome registry items depth result)
    {item : Item} (hitem : item.IsRegistered registry) :
    Outcome registry (item :: items) depth result := by
  cases h with
  | values h => exact .values (List.forall_mem_cons.2 ⟨hitem, h⟩)
  | lacking => exact .lacking
  | paren h => exact .paren (List.mem_cons_of_mem _ h)
  | unknown hname h => exact .unknown (List.mem_cons_of_mem _ hname) h
  | fraction h => exact .fraction (List.mem_cons_of_mem _ h)

theorem reduce_of_lt {stack : List Float} {item : Item} (hitem : item.IsRegistered registry)
    (h : stack.length < item.arity registry) :
    reduce registry stack item = .error .invalidExpression := by
  cases item with
  | number value => exact absurd h (Nat.not_lt_zero _)
  | paren => rfl
  | operator op =>
    have harity : stack.length < op.arity := h
    simp only [reduce, takeOperands?_of_lt harity]
  | function name =>
    obtain ⟨f, hf⟩ := Option.isSome_iff_exists.1 hitem
    have harity : stack.length < f.arity := by simpa [Item.arity, hf] using h
    simp only [reduce, hf, takeOperands?_of_lt harity]

/-- Where there are enough values, the latest are the operands. -/
theorem exists_operands {count : Nat} {stack : List Float} (h : count ≤ stack.length) :
    ∃ operands below : List Float, stack = operands.reverse ++ below ∧ operands.length = count :=
  ⟨(stack.take count).reverse, stack.drop count, by simp, by simp [h]⟩

/-- What one item does to the depth and to the values. -/
theorem outcome_reduce (registry : Registry) (stack : List Float) (item : Item) :
    Outcome registry [item] (deepen registry stack.length item) (reduce registry stack item) := by
  -- the item is unknown, lacks operands, refuses them, or puts one value in their place
  by_cases hitem : item.IsRegistered registry
  · by_cases hlack : stack.length < item.arity registry
    · rw [deepen, if_pos hlack, reduce_of_lt hitem hlack]
      exact .lacking
    · obtain ⟨operands, below, rfl, hlen⟩ := exists_operands (Nat.le_of_not_lt hlack)
      rw [reduce_eq hitem hlen]
      cases hvalue : item.result? registry operands with
      | none =>
        obtain ⟨rfl, -⟩ := (result?_eq_none_iff hitem hlen).1 hvalue
        exact .fraction (List.mem_singleton_self _)
      | some v =>
        have hdepth : deepen registry (operands.reverse ++ below).length item =
            some (v :: below).length := by
          rw [deepen_eq_some_iff]
          simp [hlen]
          omega
        rw [hdepth]
        exact .values (by simpa using hitem)
  · cases item with
    | number value => exact absurd trivial hitem
    | operator op => exact absurd trivial hitem
    | paren => exact .paren (List.mem_singleton_self _)
    | function name =>
      have hname : registry.lookup name = none := Option.not_isSome_iff_eq_none.1 hitem
      rw [reduce, hname]
      exact .unknown (List.mem_singleton_self _) hname

/-- What a run does to the depth and to the values. -/
theorem outcome_foldlM (registry : Registry) (items : List Item) (stack : List Float) :
    Outcome registry items (items.foldlM (deepen registry) stack.length)
      (items.foldlM (reduce registry) stack) := by
  induction items generalizing stack with
  | nil => exact .values (by simp)
  | cons item rest ih =>
    rw [List.foldlM_cons, List.foldlM_cons]
    have hitem := outcome_reduce registry stack item
    generalize deepen registry stack.length item = depth at hitem ⊢
    generalize reduce registry stack item = result at hitem ⊢
    cases hitem with
    | @values next h => exact (ih next).cons (h item (List.mem_singleton_self _))
    | lacking => exact .lacking
    | paren h => exact .paren (List.mem_append_left rest h)
    | unknown hname h => exact .unknown (List.mem_append_left rest hname) h
    | fraction h => exact .fraction (List.mem_append_left rest h)

/-! ## Values -/

/-- What can come of a sequence, and what its depth says then. -/
theorem value_cases (registry : Registry) (items : List Item) :
    (∃ v, value registry items = .ok v ∧ (∀ item ∈ items, item.IsRegistered registry) ∧
      depth? registry items = some 1) ∨
    (value registry items = .error .invalidExpression ∧
      (depth? registry items ≠ some 1 ∨ .paren ∈ items)) ∨
    (∃ name, value registry items = .error (.unknownName name) ∧ .function name ∈ items ∧
      registry.lookup name = none) ∨
    (value registry items = .error .nonIntegerFactorial ∧ .operator .fact ∈ items) := by
  have hrun := outcome_foldlM registry items []
  unfold value depth?
  change Outcome registry items (items.foldlM (deepen registry) 0) _ at hrun
  generalize items.foldlM (deepen registry) 0 = depth at hrun ⊢
  generalize items.foldlM (reduce registry) [] = result at hrun ⊢
  cases hrun with
  | @values stack h =>
    match stack with
    | [] => exact .inr (.inl ⟨rfl, .inl (by simp)⟩)
    | [v] => exact .inl ⟨v, rfl, h, rfl⟩
    | _ :: _ :: _ => exact .inr (.inl ⟨rfl, .inl (by simp)⟩)
  | lacking => exact .inr (.inl ⟨rfl, .inl (by simp)⟩)
  | paren h => exact .inr (.inl ⟨rfl, .inr h⟩)
  | unknown hname h => exact .inr (.inr (.inl ⟨_, rfl, hname, h⟩))
  | fraction h => exact .inr (.inr (.inr ⟨rfl, h⟩))

theorem isComplete_of_value {items : List Item} {v : Float} (h : value registry items = .ok v) :
    (∀ item ∈ items, item.IsRegistered registry) ∧ isComplete registry items = true := by
  rcases value_cases registry items with ⟨_, -, hregistered, hdepth⟩ | ⟨he, -⟩ | ⟨_, he, -⟩ |
    ⟨he, -⟩
  · exact ⟨hregistered, beq_iff_eq.2 hdepth⟩
  all_goals simp [h] at he

/-- The errors of a sequence; a name that is not known is one of its functions. -/
theorem value_eq_error {items : List Item} {e : EvalError}
    (h : value registry items = .error e) :
    e = .invalidExpression ∨ (∃ name, .function name ∈ items ∧ e = .unknownName name) ∨
      e = .nonIntegerFactorial := by
  rcases value_cases registry items with ⟨_, hv, -⟩ | ⟨he, -⟩ | ⟨name, he, hname, -⟩ | ⟨he, -⟩
  · simp [h] at hv
  all_goals
    rw [h] at he
    cases he
  · exact .inl rfl
  · exact .inr (.inl ⟨name, hname, rfl⟩)
  · exact .inr (.inr rfl)

/-- A name is reported only if it is a function of the sequence and is not registered. -/
theorem unregistered_of_value {items : List Item} {name : String}
    (h : value registry items = .error (.unknownName name)) :
    .function name ∈ items ∧ registry.lookup name = none := by
  rcases value_cases registry items with ⟨_, hv, -⟩ | ⟨he, -⟩ | ⟨other, he, hname, hlookup⟩ | ⟨he, -⟩
  · simp [h] at hv
  all_goals
    rw [h] at he
    cases he
  exact ⟨hname, hlookup⟩

/-- A sequence with a value leaves a depth of one. Where the depth is one, no item lacks operands
and no values are left over. Where it is not and all functions are known, there is no value, and
nothing but operands and the factorial of a fraction is to blame. -/
theorem depth_predicts_value {items : List Item} (hparen : .paren ∉ items) :
    (∀ v, value registry items = .ok v → depth? registry items = some 1) ∧
    (depth? registry items = some 1 →
      (∃ v, value registry items = .ok v) ∨
      (∃ name, .function name ∈ items ∧ registry.lookup name = none ∧
        value registry items = .error (.unknownName name)) ∨
      value registry items = .error .nonIntegerFactorial) ∧
    ((∀ item ∈ items, item.IsRegistered registry) → depth? registry items ≠ some 1 →
      value registry items = .error .invalidExpression ∨
      value registry items = .error .nonIntegerFactorial) := by
  refine ⟨fun v hv => beq_iff_eq.1 (isComplete_of_value hv).2, fun hdepth => ?_,
    fun hregistered hdepth => ?_⟩
  · rcases value_cases registry items with ⟨v, hv, -⟩ | ⟨-, hne | hmem⟩ |
      ⟨name, he, hname, hlookup⟩ | ⟨he, -⟩
    · exact .inl ⟨v, hv⟩
    · exact absurd hdepth hne
    · exact absurd hmem hparen
    · exact .inr (.inl ⟨name, hname, hlookup, he⟩)
    · exact .inr (.inr he)
  · rcases value_cases registry items with ⟨-, -, -, hone⟩ | ⟨he, -⟩ |
      ⟨name, -, hname, hlookup⟩ | ⟨he, -⟩
    · exact absurd hone hdepth
    · exact .inl he
    · have hknown : (registry.lookup name).isSome = true := hregistered _ hname
      simp [hlookup] at hknown
    · exact .inr he

/-- A sum that lacks an operand, after the factorial of a fraction. -/
theorem depth_predicts_value_fraction :
    let items : List Item := [.number 2.5, .operator .fact, .operator .add]
    .paren ∉ items ∧ (∀ item ∈ items, item.IsRegistered .builtin) ∧
      depth? .builtin items ≠ some 1 ∧
      (value .builtin items = .error .invalidExpression ∨
        value .builtin items = .error .nonIntegerFactorial) := by
  intro items
  have hparen : .paren ∉ items := by decide +kernel
  have hregistered : ∀ item ∈ items, item.IsRegistered .builtin := by decide +kernel
  have hdepth : depth? .builtin items ≠ some 1 := by decide +kernel
  exact ⟨hparen, hregistered, hdepth, (depth_predicts_value hparen).2.2 hregistered hdepth⟩

end Reckoner.Postfix
