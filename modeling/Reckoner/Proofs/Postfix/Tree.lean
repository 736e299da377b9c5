import Reckoner.Postfix.Depth
import Reckoner.Proofs.Expression.Value

/-!
# The tree of a postfix sequence

`Tree registry` are the trees whose nodes carry numbers, operators and registered functions, each
with as many operands as it takes. Such a tree has its nodes in post-order (`Tree.postorder`) and,
where each factorial has a whole operand, a value (`Tree.value?`).

A complete sequence is the post-order of exactly one tree and its value is that of the tree
(`existsUnique_postorder`): there is a tree since the depth never falls short of an arity
(`exists_forest`), there is no other since the last node and the operands before it can be told
from the end of a sequence (`Tree.postorder_inj`), and the value stack holds the values of the
subtrees that are complete (`Tree.puts_postorder`).
-/

namespace Reckoner.Postfix

variable {registry : Registry}

namespace Item

/-- Whether an item can be a node of a tree. -/
def IsRegistered (registry : Registry) : Item → Prop
  | number _ | operator _ => True
  | function name => (registry.lookup name).isSome
  | paren => False

instance (registry : Registry) (item : Item) : Decidable (item.IsRegistered registry) := by
  cases item <;> unfold IsRegistered <;> infer_instance

/-- The value of an item at its operands, oldest first. There is none for a factorial whose operand
is not whole. -/
def result? (registry : Registry) (operands : List Float) : Item → Option Float
  | number value => some value
  | operator op =>
    if op = .fact ∧ ∃ x ∈ operands, Double.isWhole x = false then none else op.result? operands
  | function name => (registry.lookup name).map (·.apply operands)
  | paren => none

end Item

/-! ## Trees -/

inductive Tree (registry : Registry) : Type where
  | node (item : Item) (h : item.IsRegistered registry)
      (operands : Fin (item.arity registry) → Tree registry) : Tree registry

namespace Tree

/-- The items of a tree, each after its operands. -/
def postorder : Tree registry → List Item
  | node item _ operands => (List.ofFn fun i => (operands i).postorder).flatten ++ [item]

/-- The value of a tree, found from the values of its operands from left to right. -/
def value? : Tree registry → Option Float
  | node item _ operands => do
    let values ← (List.ofFn fun i => (operands i).value?).mapM id
    item.result? registry values

/-- Somewhere in the tree a factorial has an operand with a value that is not whole. -/
inductive MeetsFraction : Tree registry → Prop where
  | factorial {h : (Item.operator .fact).IsRegistered registry}
      {operands : Fin ((Item.operator .fact).arity registry) → Tree registry}
      (i : Fin ((Item.operator .fact).arity registry)) {x : Float}
      (hvalue : (operands i).value? = some x) (hx : Double.isWhole x = false) :
      MeetsFraction (node (.operator .fact) h operands)
  | operand {item : Item} {h : item.IsRegistered registry}
      {operands : Fin (item.arity registry) → Tree registry} (i : Fin (item.arity registry))
      (hi : MeetsFraction (operands i)) : MeetsFraction (node item h operands)

/-! ## One tree at most -/

theorem flatten_ofFn_inj {k : Nat} {f : Fin k → Tree registry}
    (h : ∀ i (g : Tree registry) (xs ys : List Item),
      xs ++ (f i).postorder = ys ++ g.postorder → xs = ys ∧ f i = g)
    {g : Fin k → Tree registry} {xs ys : List Item}
    (heq : xs ++ (List.ofFn fun i => (f i).postorder).flatten =
      ys ++ (List.ofFn fun i => (g i).postorder).flatten) : xs = ys ∧ f = g := by
  induction k with
  | zero => exact ⟨by simpa using heq, funext fun i => i.elim0⟩
  | succ k ih =>
    simp only [List.ofFn_succ_last, List.flatten_append, List.flatten_singleton,
      ← List.append_assoc] at heq
    obtain ⟨hfront, hlast⟩ := h _ _ _ _ heq
    obtain ⟨hxs, hinit⟩ := ih (fun i => h i.castSucc) hfront
    refine ⟨hxs, funext fun i => ?_⟩
    induction i using Fin.lastCases with
    | last => exact hlast
    | cast i => exact congrFun hinit i

/-- The last tree of a sequence and what stands before it can be told from the sequence. -/
theorem postorder_append_inj (s : Tree registry) : ∀ (t : Tree registry) (xs ys : List Item),
    xs ++ s.postorder = ys ++ t.postorder → xs = ys ∧ s = t := by
  induction s with
  | node item hitem operands ih =>
    rintro ⟨item', hitem', operands'⟩ xs ys heq
    simp only [postorder, ← List.append_assoc] at heq
    obtain ⟨hfront, hitems⟩ := List.append_inj' heq rfl
    obtain rfl : item = item' := by simpa using hitems
    obtain ⟨rfl, rfl⟩ := flatten_ofFn_inj ih hfront
    exact ⟨rfl, rfl⟩

theorem postorder_inj {s t : Tree registry} (h : s.postorder = t.postorder) : s = t :=
  (postorder_append_inj s t [] [] (by simpa using h)).2

end Tree

/-! ## One tree at least -/

theorem exists_node {item : Item} (h : item.IsRegistered registry) {operands : List (Tree registry)}
    (hlen : operands.length = item.arity registry) :
    ∃ t : Tree registry, t.postorder = operands.flatMap Tree.postorder ++ [item] := by
  refine ⟨.node item h fun i => operands.get (i.cast hlen.symm), ?_⟩
  have hofFn : (List.ofFn fun i : Fin (item.arity registry) =>
      (operands.get (i.cast hlen.symm)).postorder) = operands.map Tree.postorder :=
    List.ext_getElem (by simp [hlen]) (by simp)
  rw [Tree.postorder, hofFn, List.flatMap_def]

/-- The depth is the number of trees that are complete. -/
theorem exists_forest {items : List Item} (hreg : ∀ item ∈ items, item.IsRegistered registry)
    {depth : Nat} (forest : List (Tree registry))
    (h : items.foldlM (deepen registry) forest.length = some depth) :
    ∃ forest' : List (Tree registry), forest'.length = depth ∧
      forest'.flatMap Tree.postorder = forest.flatMap Tree.postorder ++ items := by
  induction items generalizing forest with
  | nil =>
    cases h
    exact ⟨forest, rfl, by simp⟩
  | cons item rest ih =>
    rw [List.foldlM_cons, deepen] at h
    split at h
    · cases h
    · rename_i harity
      -- the item takes the latest trees for its operands
      obtain ⟨before, operands, rfl, hlen⟩ : ∃ before operands, forest = before ++ operands ∧
          operands.length = item.arity registry :=
        ⟨_, _, (List.take_append_drop (forest.length - item.arity registry) forest).symm, by
          rw [List.length_drop]; omega⟩
      obtain ⟨tree, htree⟩ := exists_node (hreg item List.mem_cons_self) hlen
      have hdepth : (before ++ operands).length - item.arity registry + 1 =
          (before ++ [tree]).length := by simp [hlen]
      obtain ⟨forest', hlength, hitems⟩ :=
        ih (fun x hx => hreg x (List.mem_cons_of_mem _ hx)) (before ++ [tree]) (hdepth ▸ h)
      exact ⟨forest', hlength, by simp [hitems, htree]⟩

theorem exists_postorder {items : List Item} (hreg : ∀ item ∈ items, item.IsRegistered registry)
    (h : isComplete registry items = true) : ∃ t : Tree registry, t.postorder = items := by
  obtain ⟨forest, hlength, hitems⟩ := exists_forest hreg [] (by simpa [isComplete, depth?] using h)
  obtain ⟨t, rfl⟩ := List.length_eq_one_iff.1 hlength
  exact ⟨t, by simpa using hitems⟩

/-! ## Values -/

section
variable {results : List (Option Float)}

theorem mapM_id_eq_some_iff {values : List Float} :
    results.mapM id = some values ↔ results = values.map some := by
  induction results generalizing values with
  | nil => cases values <;> simp
  | cons x rest ih =>
    cases x with
    | none => cases values <;> simp
    | some v => cases values <;> simp [Option.bind_eq_some_iff, ih, and_comm]

theorem length_of_mapM_id {values : List Float} (h : results.mapM id = some values) :
    values.length = results.length := by
  rw [mapM_id_eq_some_iff.1 h, List.length_map]

theorem mapM_id_eq_none_iff : results.mapM id = none ↔ none ∈ results := by
  induction results with
  | nil => simp
  | cons x rest ih =>
    cases x with
    | none => simp
    | some v => cases hrest : rest.mapM id <;> simp_all

end

/-- An operator has a value at as many operands as it takes, unless it is the factorial of a
fraction. -/
theorem isSome_result? {op : Operator} {operands : List Float} (hlen : operands.length = op.arity)
    (hwhole : ¬ (op = .fact ∧ ∃ x ∈ operands, Double.isWhole x = false)) :
    (op.result? operands).isSome = true := by
  cases op with
  | add | sub | mul | div | pow =>
    obtain ⟨x, y, rfl⟩ := List.length_eq_two.1 hlen
    rfl
  | pos | neg =>
    obtain ⟨x, rfl⟩ := List.length_eq_one_iff.1 hlen
    rfl
  | fact =>
    obtain ⟨x, rfl⟩ := List.length_eq_one_iff.1 hlen
    exact Double.isSome_factorial? (by simpa using hwhole)

theorem result?_eq_none_iff {item : Item} (h : item.IsRegistered registry) {operands : List Float}
    (hlen : operands.length = item.arity registry) :
    item.result? registry operands = none ↔
      item = .operator .fact ∧ ∃ x ∈ operands, Double.isWhole x = false := by
  cases item with
  | number value => simp [Item.result?]
  | function name =>
    obtain ⟨f, hf⟩ := Option.isSome_iff_exists.1 h
    simp [Item.result?, hf]
  | paren => exact h.elim
  | operator op =>
    simp only [Item.result?, Item.operator.injEq]
    split
    · simp_all
    · rename_i hwhole
      obtain ⟨v, hv⟩ := Option.isSome_iff_exists.1 (isSome_result? hlen hwhole)
      simp only [hv, reduceCtorEq, hwhole]

theorem value_operator (registry : Registry) {op : Operator} {operands : List Float}
    (hlen : operands.length = op.arity) :
    op.value operands =
      (Item.result? registry operands (.operator op)).elim (.error .nonIntegerFactorial) .ok := by
  have hcond : (decide (op = .fact) && !operands.all Double.isWhole) = true ↔
      op = .fact ∧ ∃ x ∈ operands, Double.isWhole x = false := by simp
  simp only [Operator.value, Item.result?, hcond]
  split
  · rfl
  · rename_i hwhole
    obtain ⟨v, hv⟩ := Option.isSome_iff_exists.1 (isSome_result? hlen hwhole)
    rw [hv]
    rfl

theorem reduce_eq {item : Item} (h : item.IsRegistered registry) {operands : List Float}
    (hlen : operands.length = item.arity registry) (below : List Float) :
    reduce registry (operands.reverse ++ below) item =
      (item.result? registry operands).elim (.error .nonIntegerFactorial) fun v =>
        .ok (v :: below) := by
  cases item with
  | number value =>
    obtain rfl := List.length_eq_zero_iff.1 hlen
    rfl
  | operator op =>
    rw [reduce_operator operands hlen, value_operator registry hlen]
    cases Item.result? registry operands (.operator op) <;> rfl
  | function name =>
    obtain ⟨f, hf⟩ := Option.isSome_iff_exists.1 h
    have harity : operands.length = f.arity := by simpa [Item.arity, hf] using hlen
    rw [reduce_function hf operands harity]
    simp [Item.result?, hf]
  | paren => exact h.elim

theorem puts_ofFn {k : Nat} {orders : Fin k → List Item} {results : Fin k → Option Float}
    (h : ∀ i, Puts registry (orders i) (results i)) (stack : List Float) :
    (List.ofFn orders).flatten.foldlM (reduce registry) stack =
      ((List.ofFn results).mapM id).elim (.error .nonIntegerFactorial) fun values =>
        .ok (values.reverse ++ stack) := by
  induction k generalizing stack with
  | zero => simp; rfl
  | succ k ih =>
    rw [List.ofFn_succ, List.ofFn_succ, List.flatten_cons, List.foldlM_append, h 0, List.mapM_cons]
    cases results 0 with
    | none => rfl
    | some v =>
      have hrest := ih (fun i => h i.succ) (v :: stack)
      simp only [Option.elim_some, bind, Except.bind]
      rw [hrest]
      cases (List.ofFn fun i => results i.succ).mapM id <;> simp [id]

theorem Tree.puts_postorder (t : Tree registry) : Puts registry t.postorder t.value? := by
  induction t with
  | node item h operands ih =>
    intro stack
    rw [postorder, List.foldlM_append, puts_ofFn ih]
    rw [value?]
    cases hvalues : (List.ofFn fun i => (operands i).value?).mapM id with
    | none => rfl
    | some values =>
      have hlen : values.length = item.arity registry := by simpa using length_of_mapM_id hvalues
      simp only [Option.elim_some, bind, Except.bind, List.foldlM_cons, List.foldlM_nil,
        Option.bind_some]
      rw [reduce_eq h hlen]
      cases item.result? registry values <;> rfl

theorem Tree.value?_eq_none_iff (t : Tree registry) : t.value? = none ↔ t.MeetsFraction := by
  induction t with
  | node item h operands ih =>
    constructor
    · intro hnone
      rw [value?] at hnone
      cases hvalues : (List.ofFn fun i => (operands i).value?).mapM id with
      | none =>
        obtain ⟨i, hi⟩ := List.mem_ofFn.1 (mapM_id_eq_none_iff.1 hvalues)
        exact .operand i ((ih i).1 hi)
      | some values =>
        have hlist := mapM_id_eq_some_iff.1 hvalues
        have hlen : values.length = item.arity registry := by simpa using length_of_mapM_id hvalues
        rw [hvalues] at hnone
        obtain ⟨rfl, x, hx, hwhole⟩ := (result?_eq_none_iff h hlen).1 hnone
        obtain ⟨i, hi⟩ := List.mem_ofFn.1 (hlist ▸ List.mem_map_of_mem hx)
        exact .factorial i hi hwhole
    · intro hmeets
      rw [value?]
      cases hvalues : (List.ofFn fun i => (operands i).value?).mapM id with
      | none => rfl
      | some values =>
        have hlist := mapM_id_eq_some_iff.1 hvalues
        have hlen : values.length = item.arity registry := by simpa using length_of_mapM_id hvalues
        cases hmeets with
        | factorial i hi hwhole =>
          have hmem : some _ ∈ values.map some := hlist ▸ List.mem_ofFn.2 ⟨i, hi⟩
          obtain ⟨x, hx, hxeq⟩ := List.mem_map.1 hmem
          cases hxeq
          exact (result?_eq_none_iff h hlen).2 ⟨rfl, _, hx, hwhole⟩
        | operand i hi =>
          have hmem : none ∈ values.map some := hlist ▸ List.mem_ofFn.2 ⟨i, (ih i).2 hi⟩
          simp at hmem

/-- A complete sequence is the post-order of one tree, and has its value. -/
theorem existsUnique_postorder {items : List Item}
    (hreg : ∀ item ∈ items, item.IsRegistered registry)
    (hcomplete : isComplete registry items = true) :
    ∃ t : Tree registry, t.postorder = items ∧
      (∀ t' : Tree registry, t'.postorder = items → t' = t) ∧
      value registry items = t.value?.elim (.error .nonIntegerFactorial) .ok ∧
      (t.value? = none ↔ t.MeetsFraction) := by
  obtain ⟨t, rfl⟩ := exists_postorder hreg hcomplete
  exact ⟨t, rfl, fun t' h => Tree.postorder_inj h, t.puts_postorder.value, t.value?_eq_none_iff⟩

/-- The operands of a difference inside a remainder, and a factorial of the whole. -/
theorem existsUnique_postorder_mod :
    let items : List Item := [.number 10, .number 7, .number 4, .operator .sub, .function "mod",
      .operator .fact]
    (∀ item ∈ items, item.IsRegistered .builtin) ∧ isComplete .builtin items = true ∧
      ∃ t : Tree .builtin, t.postorder = items ∧
        (∀ t' : Tree .builtin, t'.postorder = items → t' = t) ∧
        value .builtin items = t.value?.elim (.error .nonIntegerFactorial) .ok ∧
        (t.value? = none ↔ t.MeetsFraction) := by
  intro items
  have hreg : ∀ item ∈ items, item.IsRegistered .builtin := by decide +kernel
  have hcomplete : isComplete .builtin items = true := by decide +kernel
  exact ⟨hreg, hcomplete, existsUnique_postorder hreg hcomplete⟩

end Reckoner.Postfix
