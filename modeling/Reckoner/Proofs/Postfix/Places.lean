import Reckoner.Proofs.Postfix.Comma
import Reckoner.Proofs.Postfix.Items

/-!
# Numbers keep ahead

A number goes out as soon as it is read, and all else waits. So the numbers of an order stand in the
sequence of their tokens, and none of them comes to stand behind an operator or a function that it
stood before (`Ahead`). This holds of every list of tokens that has an order, ill-formed ones too:
the order has what the tokens have, no more and no less, and only operators and functions move, to
the right (`ofTokens_rearranges`).
-/

namespace Reckoner

/-- The value that a token is put out as: a numeral, or a name that is bound. -/
def Scope.number? (scope : Scope) : Token → Option Float
  | .number n => some n.value
  | .identifier name => scope.value? name
  | .symbol _ => none

/-- The operator or function that a token is put out as; a name is a function if it is not bound. -/
def Scope.operation? (scope : Scope) : Token → Option Postfix.Item
  | .symbol (.operator op) => some (.operator op)
  | .identifier name => if (scope.value? name).isSome then none else some (.function name)
  | .number _ | .symbol .comma | .symbol .opening | .symbol .closing => none

namespace Postfix

open scoped List

variable {scope : Scope}

def Item.number? : Item → Option Float
  | .number value => some value
  | _ => none

def Item.isOperation : Item → Bool
  | .operator _ | .function _ => true
  | .number _ | .paren => false

/-! ## What tokens come to -/

theorem filter_itemsOf (scope : Scope) (t : Token) :
    (itemsOf scope t).filter Item.isOperation = (scope.operation? t).toList := by
  cases t with
  | number n => rfl
  | identifier name =>
    rw [itemsOf, Scope.resolve_eq, Scope.operation?]
    cases scope.value? name <;> rfl
  | symbol s => cases s <;> rfl

theorem isParen_of_mem_itemsOf {t : Token} {item : Item} (h : item ∈ itemsOf scope t) :
    item.isParen = false := by
  cases t with
  | number n =>
    rw [List.mem_singleton.1 h]
    rfl
  | identifier name =>
    rw [itemsOf, Scope.resolve_eq] at h
    rw [List.mem_singleton.1 h]
    cases scope.value? name <;> rfl
  | symbol s =>
    cases s with
    | operator op =>
      rw [List.mem_singleton.1 h]
      rfl
    | comma | opening | closing => cases h

/-! ## Steps and runs -/

/-- No number is pending at a place, and only what stands before it is. -/
def PendingAt (place : Nat) (pending : List Placed) : Prop :=
  ∀ x ∈ pending, x.1.isNumber = false ∧ x.2 < place

/-- Whether `y` may come behind `x` in an order: a number only if it stands behind `x`. -/
def Ahead (x y : Placed) : Prop := y.1.isNumber = true → x.2 < y.2

/-- A step sends out the number of its token and nothing else, or items that were pending. -/
theorem stepPlaced_cases {pending now next : List Placed} {t : Token} {place : Nat}
    (h : stepPlaced scope pending (t, place) = .ok (now, next)) :
    (∃ v, scope.number? t = some v ∧ now = [(.number v, place)] ∧ next = pending) ∨
    (scope.number? t = none ∧ now ⊆ pending ∧
      ∀ x ∈ next, x ∈ pending ∨ x.1.isNumber = false ∧ x.2 = place) := by
  have hkept : ∀ {x : Placed}, x.1.isNumber = false → x.2 = place →
      ∀ y ∈ x :: pending, y ∈ pending ∨ y.1.isNumber = false ∧ y.2 = place := by
    intro x hnumber hplace
    exact List.forall_mem_cons.2 ⟨.inr ⟨hnumber, hplace⟩, fun y hy => .inl hy⟩
  cases t with
  | number n =>
    cases h
    exact .inl ⟨_, rfl, rfl, rfl⟩
  | identifier name =>
    simp only [stepPlaced] at h
    cases hvalue : scope.value? name <;> rw [hvalue] at h <;> cases h
    · exact .inr ⟨hvalue, List.nil_subset _, hkept rfl rfl⟩
    · exact .inl ⟨_, hvalue, rfl, rfl⟩
  | symbol s =>
    refine .inr ⟨rfl, ?_⟩
    cases s with
    | comma =>
      cases h
      exact ⟨List.nil_subset _, fun x hx => .inl hx⟩
    | opening =>
      cases h
      exact ⟨List.nil_subset _, hkept rfl rfl⟩
    | operator op =>
      cases h
      refine ⟨List.takeWhile_subset _, List.forall_mem_cons.2 ⟨.inr ⟨rfl, rfl⟩, fun x hx => ?_⟩⟩
      exact .inl (List.dropWhile_subset _ hx)
    | closing =>
      simp only [stepPlaced] at h
      cases hd : pending.dropWhile (!·.1.isParen) with
      | nil => simp [hd] at h
      | cons x outer =>
        rw [hd] at h
        cases h
        refine ⟨List.takeWhile_subset _, fun y hy => .inl ?_⟩
        have hmem : y ∈ pending.dropWhile (!·.1.isParen) := hd ▸ List.mem_cons_of_mem x hy
        exact List.dropWhile_subset _ hmem

section
variable {place : Nat} {pending : List Placed}

theorem PendingAt.number?_eq_none (h : PendingAt place pending) :
    ∀ x ∈ pending, x.1.number? = none := by
  rintro ⟨item, _⟩ hx
  cases item with
  | number v => cases (h _ hx).1
  | operator | function | paren => rfl

theorem PendingAt.ahead (h : PendingAt place pending) {y : Placed} (hy : y ∈ pending)
    (x : Placed) : Ahead x y := by
  intro hnumber
  rw [(h y hy).1] at hnumber
  cases hnumber

theorem PendingAt.next {next : List Placed} (h : PendingAt place pending)
    (hnext : ∀ x ∈ next, x ∈ pending ∨ x.1.isNumber = false ∧ x.2 = place) :
    PendingAt (place + 1) next := by
  intro x hx
  rcases hnext x hx with hx | ⟨hnumber, hplace⟩
  · exact ⟨(h x hx).1, Nat.lt_succ_of_lt (h x hx).2⟩
  · exact ⟨hnumber, by omega⟩

end

/-- The numbers of a run are those of its tokens in their sequence. -/
theorem numbers_runPlaced {pending out last : List Placed} {tokens : List Token} {place : Nat}
    (hpending : PendingAt place pending)
    (h : runPlaced scope pending (tokens.zipIdx place) = .ok (out, last)) :
    PendingAt (place + tokens.length) last ∧
      out.filterMap (·.1.number?) = tokens.filterMap scope.number? := by
  induction tokens generalizing pending out place with
  | nil =>
    cases h
    exact ⟨hpending, rfl⟩
  | cons t rest ih =>
    obtain ⟨now, next, later, hstep, hrest, rfl⟩ := runPlaced_cons_ok h
    rw [List.length_cons, Nat.add_comm rest.length, ← Nat.add_assoc, List.filterMap_append]
    rcases stepPlaced_cases hstep with ⟨v, hv, rfl, rfl⟩ | ⟨hnone, hnow, hnext⟩
    · obtain ⟨hlast, hlater⟩ := ih (hpending.next fun x hx => .inl hx) hrest
      rw [hlater, List.filterMap_cons_some hv]
      exact ⟨hlast, rfl⟩
    · obtain ⟨hlast, hlater⟩ := ih (hpending.next hnext) hrest
      have hnow : now.filterMap (·.1.number?) = [] :=
        List.filterMap_eq_nil_iff.2 fun x hx => hpending.number?_eq_none x (hnow hx)
      rw [hlater, hnow, List.filterMap_cons_none hnone]
      exact ⟨hlast, rfl⟩

/-- Behind each number of a run stands only what stands behind it in the tokens. -/
theorem ahead_runPlaced {pending out last : List Placed} {tokens : List Token} {place : Nat}
    (hpending : PendingAt place pending)
    (h : runPlaced scope pending (tokens.zipIdx place) = .ok (out, last)) :
    (out ++ last).Pairwise Ahead ∧ ∀ x ∈ out ++ last, x.1.isNumber = true → place ≤ x.2 := by
  -- what is pending stands before the place, and what is still to come at it or behind it
  induction tokens generalizing pending out place with
  | nil =>
    cases h
    rw [List.nil_append]
    refine ⟨List.pairwise_of_forall_mem_list fun x _ y hy => hpending.ahead hy x, ?_⟩
    intro x hx hnumber
    rw [(hpending x hx).1] at hnumber
    cases hnumber
  | cons t rest ih =>
    obtain ⟨now, next, later, hstep, hrest, rfl⟩ := runPlaced_cons_ok h
    rw [List.append_assoc, List.pairwise_append, List.forall_mem_append]
    rcases stepPlaced_cases hstep with ⟨v, -, rfl, rfl⟩ | ⟨-, hnow, hnext⟩
    · obtain ⟨hahead, hplaces⟩ := ih (hpending.next fun x hx => .inl hx) hrest
      refine ⟨⟨List.pairwise_singleton .., hahead, ?_⟩, ?_, ?_⟩
      · rintro x hx y hy hnumber
        rw [List.mem_singleton.1 hx]
        exact hplaces y hy hnumber
      · rintro x hx -
        rw [List.mem_singleton.1 hx]
      · exact fun x hx hnumber => Nat.le_of_succ_le (hplaces x hx hnumber)
    · obtain ⟨hahead, hplaces⟩ := ih (hpending.next hnext) hrest
      refine ⟨⟨?_, hahead, ?_⟩, ?_, ?_⟩
      · exact List.pairwise_of_forall_mem_list fun x _ y hy => hpending.ahead (hnow hy) x
      · exact fun x hx y hy hnumber => (hpending x (hnow hx)).2.trans (hplaces y hy hnumber)
      · intro x hx hnumber
        rw [(hpending x (hnow hx)).1] at hnumber
        cases hnumber
      · exact fun x hx hnumber => Nat.le_of_succ_le (hplaces x hx hnumber)

/-! ## Orders -/

theorem pendingAt_nil : PendingAt 0 [] := by simp [PendingAt]

/-- The numbers of an order are those of its tokens in their sequence. -/
theorem numbers_ofTokens {tokens : List Token} {items : List Item}
    (h : ofTokens scope tokens = .ok items) :
    items.filterMap Item.number? = tokens.filterMap scope.number? := by
  obtain ⟨placed, hplaced, rfl⟩ := exists_ofTokensPlaced h
  obtain ⟨out, pending, hrun, -, rfl⟩ := ofTokensPlaced_ok hplaced
  obtain ⟨hpending, hnumbers⟩ := numbers_runPlaced pendingAt_nil hrun
  have hnone : pending.filterMap (·.1.number?) = [] :=
    List.filterMap_eq_nil_iff.2 hpending.number?_eq_none
  rw [List.filterMap_map, ← hnumbers, Function.comp_def, List.filterMap_append, hnone,
    List.append_nil]

/-- The operators and functions of an order are those of its tokens. -/
theorem operations_ofTokens {tokens : List Token} {items : List Item}
    (h : ofTokens scope tokens = .ok items) :
    items.filter Item.isOperation ~ tokens.filterMap scope.operation? := by
  have hperm := (perm_ofTokens h).filter Item.isOperation
  simpa only [List.filter_flatMap, filter_itemsOf, List.filterMap_eq_flatMap_toList] using hperm

theorem lt_of_ofTokensPlaced {tokens : List Token} {placed : List Placed}
    (h : ofTokensPlaced scope tokens = .ok placed) {i j : Nat} (hi : i < placed.length)
    (hj : j < placed.length) (hnumber : placed[i].1.isNumber = true)
    (hplace : placed[i].2 < placed[j].2) : i < j := by
  obtain ⟨out, pending, hrun, -, rfl⟩ := ofTokensPlaced_ok h
  have hahead := (ahead_runPlaced pendingAt_nil hrun).1
  by_contra hle
  rcases Nat.lt_or_eq_of_le (Nat.le_of_not_lt hle) with hlt | rfl
  · exact absurd (List.pairwise_iff_getElem.1 hahead j i hj hi hlt hnumber) (by omega)
  · omega

/-- An order is its tokens rearranged: it has no parenthesis and no comma, the same numbers in the
same sequence and the same operators and functions. Item by item, with the places of the tokens, no
number that stands before an item comes behind it. -/
theorem ofTokens_rearranges {tokens : List Token} {items : List Item}
    (h : ofTokens scope tokens = .ok items) :
    (∀ item ∈ items, item.isParen = false) ∧
    items.filterMap Item.number? = tokens.filterMap scope.number? ∧
    items.filter Item.isOperation ~ tokens.filterMap scope.operation? ∧
    ∃ placed, ofTokensPlaced scope tokens = .ok placed ∧ placed.map Prod.fst = items ∧
      placed ~ placedItems scope tokens.zipIdx ∧
      ∀ (i j : Nat) (hi : i < placed.length) (hj : j < placed.length),
        placed[i].1.isNumber = true → placed[i].2 < placed[j].2 → i < j := by
  obtain ⟨placed, hplaced, hitems⟩ := exists_ofTokensPlaced h
  refine ⟨fun item hitem => ?_, numbers_ofTokens h, operations_ofTokens h, placed, hplaced,
    hitems, perm_ofTokensPlaced hplaced, fun i j => lt_of_ofTokensPlaced hplaced⟩
  obtain ⟨t, -, ht⟩ := List.mem_flatMap.1 ((perm_ofTokens h).mem_iff.1 hitem)
  exact isParen_of_mem_itemsOf ht

/-- Tokens that are no expression: a function of nothing, a minus that lacks an operand and a number
after a factorial. -/
theorem ofTokens_rearranges_illFormed :
    let scope : Scope := { vars := .insert ∅ "x" 5 }
    let number (c : Char) : Token := .number ⟨⟨[c], none⟩, none⟩
    let tokens : List Token := [number '2', .symbol (.operator .mul), .identifier "f",
      .symbol .opening, .symbol .comma, .identifier "x", .symbol (.operator .sub),
      .symbol .closing, .symbol (.operator .fact), number '3']
    let items : List Item := [.number 2, .number 5, .operator .sub, .function "f", .number 3,
      .operator .fact, .operator .mul]
    ofTokens scope tokens = .ok items ∧
      items.filterMap Item.number? = tokens.filterMap scope.number? ∧
      ∃ placed, ofTokensPlaced scope tokens = .ok placed ∧ placed.map Prod.fst = items ∧
        placed.map Prod.snd = [0, 5, 6, 2, 9, 8, 1] := by
  intro scope number tokens items
  have horder : ofTokens scope tokens = .ok items := by decide +kernel
  obtain ⟨-, hnumbers, -, placed, hplaced, hitems, -, -⟩ := ofTokens_rearranges horder
  have hplaces : (ofTokensPlaced scope tokens).map (List.map Prod.snd) =
      .ok [0, 5, 6, 2, 9, 8, 1] := by decide +kernel
  rw [hplaced] at hplaces
  exact ⟨horder, hnumbers, placed, hplaced, hitems, Except.ok.inj hplaces⟩

end Postfix

end Reckoner
