import Reckoner.Proofs.Expression.Basic
import Reckoner.Proofs.Refusal

/-!
# The items of an order

Whatever the order of tokens, its items are those of the tokens, one by one, put into another
sequence (`perm_ofTokens`): every token sends its item out or leaves it pending (`perm_stepPlaced`),
and what is pending goes out in the end.

Equal items are told apart by the places of their tokens. `ofTokensPlaced` is the order with the
place of each item beside it: without the places it is `ofTokens` (`map_ofTokensPlaced`).
-/

namespace Reckoner.Postfix

open scoped List

variable {scope : Scope}

/-- What comes of a token in an order. -/
def itemsOf (scope : Scope) : Token → List Item
  | .number n => [.number n.value]
  | .identifier name => [scope.resolve name]
  | .symbol (.operator op) => [.operator op]
  | .symbol .comma | .symbol .opening | .symbol .closing => []

/-! ## Places -/

/-- An item and the place of its token. -/
abbrev Placed := Item × Nat

/-- One step, with the place of the token. -/
def stepPlaced (scope : Scope) (pending : List Placed) :
    Token × Nat → Except EvalError (List Placed × List Placed)
  | (.number n, place) => .ok ([(.number n.value, place)], pending)
  | (.symbol .comma, _) => .ok ([], pending)
  | (.symbol .opening, place) => .ok ([], (.paren, place) :: pending)
  | (.symbol .closing, _) =>
    match pending.dropWhile (!·.1.isParen) with
    | [] => .error .mismatchedParenthesis
    | _ :: outer => .ok (pending.takeWhile (!·.1.isParen), outer)
  | (.symbol (.operator op), place) =>
    .ok (pending.takeWhile (goesBefore op ·.1),
      (.operator op, place) :: pending.dropWhile (goesBefore op ·.1))
  | (.identifier name, place) =>
    match scope.value? name with
    | some value => .ok ([(.number value, place)], pending)
    | none => .ok ([], (.function name, place) :: pending)

def runPlaced (scope : Scope) (pending : List Placed) :
    List (Token × Nat) → Except EvalError (List Placed × List Placed)
  | [] => .ok ([], pending)
  | t :: rest => do
    let (now, next) ← stepPlaced scope pending t
    let (later, last) ← runPlaced scope next rest
    return (now ++ later, last)

/-- The postfix order of the tokens, each item with the place of its token. -/
def ofTokensPlaced (scope : Scope) (tokens : List Token) : Except EvalError (List Placed) := do
  let (items, pending) ← runPlaced scope [] tokens.zipIdx
  if pending.any (·.1.isParen) then throw .mismatchedParenthesis
  return items ++ pending

/-- The items of the tokens where they stand. -/
def placedItems (scope : Scope) (tokens : List (Token × Nat)) : List Placed :=
  tokens.flatMap fun t => (itemsOf scope t.1).map (·, t.2)

theorem map_placedItems (scope : Scope) (tokens : List (Token × Nat)) :
    (placedItems scope tokens).map Prod.fst = (tokens.map Prod.fst).flatMap (itemsOf scope) := by
  simp [placedItems, List.map_flatMap, List.flatMap_map, Function.comp_def]

/-- What is sent out and what is pending, without places. -/
def unplace (r : List Placed × List Placed) : List Item × List Item :=
  (r.1.map Prod.fst, r.2.map Prod.fst)

theorem map_stepPlaced (scope : Scope) (pending : List Placed) (t : Token × Nat) :
    (stepPlaced scope pending t).map unplace = step scope (pending.map Prod.fst) t.1 := by
  obtain ⟨t, place⟩ := t
  cases t with
  | number n => rfl
  | identifier name =>
    simp only [stepPlaced, step]
    cases scope.value? name <;> rfl
  | symbol s =>
    cases s with
    | comma | opening => rfl
    | operator op =>
      simp only [stepPlaced, step, List.takeWhile_map, List.dropWhile_map, Except.map, unplace,
        List.map_cons]
      rfl
    | closing =>
      simp only [stepPlaced, step, List.takeWhile_map, List.dropWhile_map, Function.comp_def]
      cases pending.dropWhile (!·.1.isParen) <;> rfl

theorem map_runPlaced (scope : Scope) (pending : List Placed) (tokens : List (Token × Nat)) :
    (runPlaced scope pending tokens).map unplace =
      run scope (pending.map Prod.fst) (tokens.map Prod.fst) := by
  induction tokens generalizing pending with
  | nil => rfl
  | cons t rest ih =>
    rw [List.map_cons, run, ← map_stepPlaced scope pending t, runPlaced]
    cases stepPlaced scope pending t with
    | error e => rfl
    | ok r =>
      have hrest := ih r.2
      simp only [bind, Except.bind, Except.map, unplace] at hrest ⊢
      rw [← hrest]
      cases runPlaced scope r.2 rest <;> simp [pure, Except.pure]

theorem map_ofTokensPlaced (scope : Scope) (tokens : List Token) :
    (ofTokensPlaced scope tokens).map (List.map Prod.fst) = ofTokens scope tokens := by
  have hrun := map_runPlaced scope [] tokens.zipIdx
  rw [List.zipIdx_map_fst, List.map_nil] at hrun
  rw [ofTokens, ← hrun, ofTokensPlaced]
  cases runPlaced scope [] tokens.zipIdx with
  | error e => rfl
  | ok r =>
    simp only [bind, Except.bind, Except.map, unplace, List.any_map, Function.comp_def]
    cases r.2.any (·.1.isParen) <;> simp [pure, Except.pure, throw, throwThe, MonadExceptOf.throw]

/-- A run that succeeds is a first step and a run of the other tokens. -/
theorem runPlaced_cons_ok {pending last out : List Placed} {t : Token × Nat}
    {rest : List (Token × Nat)} (h : runPlaced scope pending (t :: rest) = .ok (out, last)) :
    ∃ now next later, stepPlaced scope pending t = .ok (now, next) ∧
      runPlaced scope next rest = .ok (later, last) ∧ out = now ++ later := by
  rw [runPlaced] at h
  cases hs : stepPlaced scope pending t with
  | error e => simp [hs, bind, Except.bind] at h
  | ok s =>
    cases hr : runPlaced scope s.2 rest with
    | error e => simp [hs, hr, bind, Except.bind] at h
    | ok r =>
      simp only [hs, hr, bind, Except.bind, pure, Except.pure, Except.ok.injEq,
        Prod.mk.injEq] at h
      exact ⟨s.1, s.2, r.1, rfl, by rw [hr, ← h.2], h.1.symm⟩

/-- An order is the order with places, without them. -/
theorem exists_ofTokensPlaced {tokens : List Token} {items : List Item}
    (h : ofTokens scope tokens = .ok items) :
    ∃ placed, ofTokensPlaced scope tokens = .ok placed ∧ placed.map Prod.fst = items := by
  rw [← map_ofTokensPlaced] at h
  cases hplaced : ofTokensPlaced scope tokens with
  | error e => simp [hplaced, Except.map] at h
  | ok placed => exact ⟨placed, rfl, by simpa [hplaced, Except.map] using h⟩

theorem ofTokensPlaced_ok {tokens : List Token} {placed : List Placed}
    (h : ofTokensPlaced scope tokens = .ok placed) : ∃ out pending,
      runPlaced scope [] tokens.zipIdx = .ok (out, pending) ∧
      (∀ x ∈ pending, x.1.isParen = false) ∧ placed = out ++ pending := by
  unfold ofTokensPlaced at h
  cases hr : runPlaced scope [] tokens.zipIdx with
  | error e => simp [hr, bind, Except.bind] at h
  | ok r =>
    cases hp : r.2.any (·.1.isParen) with
    | true => simp [hr, hp, bind, Except.bind, throw, throwThe, MonadExceptOf.throw] at h
    | false =>
      have hplaced : placed = r.1 ++ r.2 := by
        simpa [hr, hp, bind, Except.bind, pure, Except.pure, eq_comm] using h
      exact ⟨r.1, r.2, rfl, by simpa using hp, hplaced⟩

/-! ## Nothing is lost or added -/

/-- The pending items that may go out. -/
def waiting (pending : List Placed) : List Placed := pending.filter (!·.1.isParen)

/-- Items that are no parentheses go out, and nothing is lost. -/
theorem waiting_split {p : Placed → Bool} (h : ∀ x, p x = true → x.1.isParen = false)
    (pending : List Placed) :
    pending.takeWhile p ++ waiting (pending.dropWhile p) = waiting pending := by
  have hout : waiting (pending.takeWhile p) = pending.takeWhile p := by
    refine List.filter_eq_self.2 fun x hx => ?_
    rw [h x (List.mem_takeWhile_imp hx)]
    rfl
  rw [← hout, waiting, waiting, ← List.filter_append, List.takeWhile_append_dropWhile, waiting]

theorem perm_stepPlaced {pending now next : List Placed} {t : Token × Nat}
    (h : stepPlaced scope pending t = .ok (now, next)) :
    now ++ waiting next ~ (itemsOf scope t.1).map (·, t.2) ++ waiting pending := by
  obtain ⟨t, place⟩ := t
  cases t with
  | number n =>
    cases h
    exact .refl _
  | identifier name =>
    simp only [itemsOf, Scope.resolve_eq]
    simp only [stepPlaced] at h
    cases hvalue : scope.value? name <;> rw [hvalue] at h <;> cases h <;> exact .refl _
  | symbol s =>
    cases s with
    | comma | opening =>
      cases h
      exact .refl _
    | operator op =>
      cases h
      rw [itemsOf, ← waiting_split (p := (goesBefore op ·.1)) (fun _ => isParen_of_goesBefore)
        pending]
      exact List.perm_middle
    | closing =>
      -- the opening parenthesis goes too, but it is not waiting to be sent out
      have hsplit := waiting_split (p := (!·.1.isParen)) (by simp) pending
      have hhead := List.head?_dropWhile_not (!·.1.isParen) pending
      simp only [stepPlaced] at h
      cases hd : pending.dropWhile (!·.1.isParen) with
      | nil => simp [hd] at h
      | cons x outer =>
        have hx : x.1.isParen = true := by simpa [hd] using hhead
        rw [hd] at h hsplit
        cases h
        rw [itemsOf, ← hsplit]
        simp [waiting, hx]

theorem perm_runPlaced {pending out last : List Placed} {tokens : List (Token × Nat)}
    (h : runPlaced scope pending tokens = .ok (out, last)) :
    out ++ waiting last ~ placedItems scope tokens ++ waiting pending := by
  induction tokens generalizing pending out with
  | nil =>
    cases h
    exact .refl _
  | cons t rest ih =>
    obtain ⟨now, next, later, hstep, hrest, rfl⟩ := runPlaced_cons_ok h
    let here := (itemsOf scope t.1).map (·, t.2)
    calc now ++ later ++ waiting last
      _ = now ++ (later ++ waiting last) := List.append_assoc ..
      _ ~ now ++ (placedItems scope rest ++ waiting next) := (ih hrest).append_left now
      _ ~ placedItems scope rest ++ (now ++ waiting next) := List.perm_append_comm_assoc ..
      _ ~ placedItems scope rest ++ (here ++ waiting pending) :=
        (perm_stepPlaced hstep).append_left _
      _ ~ here ++ (placedItems scope rest ++ waiting pending) := List.perm_append_comm_assoc ..
      _ = placedItems scope (t :: rest) ++ waiting pending := (List.append_assoc ..).symm

theorem perm_ofTokensPlaced {tokens : List Token} {placed : List Placed}
    (h : ofTokensPlaced scope tokens = .ok placed) : placed ~ placedItems scope tokens.zipIdx := by
  obtain ⟨out, pending, hrun, hparens, rfl⟩ := ofTokensPlaced_ok h
  have hwaiting : waiting pending = pending :=
    List.filter_eq_self.2 fun x hx => by simp [hparens x hx]
  have hperm := perm_runPlaced hrun
  rw [hwaiting, show waiting [] = [] from rfl, List.append_nil] at hperm
  exact hperm

/-- An order has the items of its tokens, in another sequence. -/
theorem perm_ofTokens {tokens : List Token} {items : List Item}
    (h : ofTokens scope tokens = .ok items) : items ~ tokens.flatMap (itemsOf scope) := by
  obtain ⟨placed, hplaced, rfl⟩ := exists_ofTokensPlaced h
  have hperm := (perm_ofTokensPlaced hplaced).map Prod.fst
  rwa [map_placedItems, List.zipIdx_map_fst] at hperm

/-- The functions of an order are the identifiers that are not bound. -/
theorem function_mem_iff {tokens : List Token} {items : List Item} {name : String}
    (h : ofTokens scope tokens = .ok items) :
    .function name ∈ items ↔ .identifier name ∈ tokens ∧ scope.value? name = none := by
  rw [(perm_ofTokens h).mem_iff, List.mem_flatMap]
  constructor
  · rintro ⟨t, ht, hitem⟩
    cases t with
    | number n => simp [itemsOf] at hitem
    | symbol s => cases s <;> simp [itemsOf] at hitem
    | identifier x =>
      rw [itemsOf, Scope.resolve_eq, List.mem_singleton] at hitem
      cases hvalue : scope.value? x with
      | some v => simp [hvalue] at hitem
      | none =>
        obtain rfl : name = x := by simpa [hvalue] using hitem
        exact ⟨ht, hvalue⟩
  · rintro ⟨ht, hvalue⟩
    refine ⟨_, ht, ?_⟩
    rw [itemsOf, Scope.resolve_eq, hvalue]
    exact List.mem_singleton_self _

end Reckoner.Postfix
