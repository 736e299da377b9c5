import Mathlib.Data.List.TakeWhile
import Reckoner.Postfix.Order

/-!
# Blocks of tokens

What is pending under an open parenthesis is out of reach until that parenthesis is closed:

* `run_frame`: a run that succeeds does the same above an open parenthesis, whatever lies below.
* `Block scope tokens items`: wherever the tokens stand, they send out `items` and leave the pending
  items as they were. Numbers and bound names are blocks, and so is a parenthesised list of tokens
  that has an order of its own (`Block.group`).
* `ofTokens_replace`: one block in the place of another changes the order in that place only.
-/

namespace Reckoner.Postfix

/-! ## Runs in parts -/

variable {scope : Scope}

theorem run_cons_of_step {pending next now : List Item} {t : Token} {rest : List Token}
    (h : step scope pending t = .ok (now, next)) :
    run scope pending (t :: rest) = (run scope next rest).map fun r => (now ++ r.1, r.2) := by
  rw [run, h]
  simp only [bind, Except.bind]
  cases run scope next rest <;> rfl

theorem run_append_of_ok {pending next first : List Item} {xs ys : List Token}
    (h : run scope pending xs = .ok (first, next)) :
    run scope pending (xs ++ ys) = (run scope next ys).map fun r => (first ++ r.1, r.2) := by
  rw [run_append, h]
  simp only [bind, Except.bind]
  cases run scope next ys <;> rfl

theorem run_append_of_error {pending : List Item} {xs : List Token} {e : EvalError}
    (h : run scope pending xs = .error e) (ys : List Token) :
    run scope pending (xs ++ ys) = .error e := by
  rw [run_append, h]
  rfl

/-- A run reads the names that occur in its tokens and no others. -/
theorem run_congr {scope' : Scope} {tokens : List Token}
    (h : ∀ name, .identifier name ∈ tokens → scope.value? name = scope'.value? name)
    (pending : List Item) : run scope pending tokens = run scope' pending tokens := by
  induction tokens generalizing pending with
  | nil => rfl
  | cons t rest ih =>
    have hstep : step scope pending t = step scope' pending t := by
      cases t with
      | identifier name => simp only [step, h name List.mem_cons_self]
      | number n => rfl
      | symbol s => cases s <;> rfl
    have hrest := ih fun name hn => h name (List.mem_cons_of_mem _ hn)
    simp only [run, hstep, hrest]

/-- A run that succeeds is a first step and a run of the other tokens. -/
theorem run_cons_ok {pending last out : List Item} {t : Token} {rest : List Token}
    (h : run scope pending (t :: rest) = .ok (out, last)) :
    ∃ now next later, step scope pending t = .ok (now, next) ∧
      run scope next rest = .ok (later, last) ∧ out = now ++ later := by
  rw [run] at h
  cases hs : step scope pending t with
  | error e => simp [hs, bind, Except.bind] at h
  | ok s =>
    cases hr : run scope s.2 rest with
    | error e => simp [hs, hr, bind, Except.bind] at h
    | ok r =>
      simp only [hs, hr, bind, Except.bind, pure, Except.pure, Except.ok.injEq,
        Prod.mk.injEq] at h
      exact ⟨s.1, s.2, r.1, rfl, by rw [hr, ← h.2], h.1.symm⟩

/-- The order of the tokens is what they send out, followed by what is pending after them. -/
theorem ofTokens_eq_ok_iff {tokens : List Token} {items : List Item} :
    ofTokens scope tokens = .ok items ↔ ∃ out pending, run scope [] tokens = .ok (out, pending) ∧
      (∀ x ∈ pending, x.isParen = false) ∧ items = out ++ pending := by
  unfold ofTokens
  cases h : run scope [] tokens with
  | error e => simp [bind, Except.bind]
  | ok r =>
    obtain ⟨out, pending⟩ := r
    cases hp : pending.any Item.isParen with
    | true =>
      simp only [bind, Except.bind, hp, if_true, Except.ok.injEq, Prod.mk.injEq]
      constructor
      · intro h
        cases h
      · rintro ⟨_, _, ⟨rfl, rfl⟩, hn, -⟩
        obtain ⟨x, hx, hpx⟩ := List.any_eq_true.1 hp
        simp [hn x hx] at hpx
    | false =>
      have hn : ∀ x ∈ pending, x.isParen = false := by simpa using hp
      simp only [bind, Except.bind, hp, Bool.false_eq_true, if_false, pure, Except.pure,
        Except.ok.injEq, Prod.mk.injEq]
      constructor
      · rintro rfl
        exact ⟨out, pending, ⟨rfl, rfl⟩, hn, rfl⟩
      · rintro ⟨_, _, ⟨rfl, rfl⟩, -, rfl⟩
        rfl

/-! ## Below an open parenthesis -/

section
variable {α : Type} {p : α → Bool} {x : α}

theorem takeWhile_append_cons (h : p x = false) (l r : List α) :
    (l ++ x :: r).takeWhile p = l.takeWhile p := by
  induction l with
  | nil => simp [h]
  | cons y l ih => simp only [List.cons_append, List.takeWhile_cons, ih]

theorem dropWhile_append_cons (h : p x = false) (l r : List α) :
    (l ++ x :: r).dropWhile p = l.dropWhile p ++ x :: r := by
  induction l with
  | nil => simp [h]
  | cons y l ih =>
    simp only [List.cons_append, List.dropWhile_cons, ih]
    split <;> rfl

end

theorem goesBefore_paren (op : Operator) : goesBefore op .paren = false := rfl

/-- A closing parenthesis sends out what is pending above the last open one. -/
theorem step_closing {pending outer : List Item} (h : ∀ x ∈ pending, x.isParen = false) :
    step scope (pending ++ .paren :: outer) (.symbol .closing) = .ok (pending, outer) := by
  have hp : ∀ x ∈ pending, (!x.isParen) = true := by simpa using h
  rw [step, List.dropWhile_append_of_pos hp, List.takeWhile_append_of_pos hp]
  simp [Item.isParen]

theorem step_closing_ok {pending now next : List Item}
    (h : step scope pending (.symbol .closing) = .ok (now, next)) :
    pending = now ++ .paren :: next ∧ ∀ x ∈ now, x.isParen = false := by
  have hsplit := List.takeWhile_append_dropWhile (p := (!·.isParen)) (l := pending)
  have hhead := List.head?_dropWhile_not (!·.isParen) pending
  cases hd : pending.dropWhile (!·.isParen) with
  | nil => simp [step, hd] at h
  | cons y outer =>
    have hparen : (!y.isParen) = false := by simpa [hd] using hhead
    have hy : y = .paren := by cases y <;> first | rfl | cases hparen
    simp only [step, hd] at h
    cases h
    refine ⟨?_, fun x hx => by simpa using List.mem_takeWhile_imp hx⟩
    rw [← hy, ← hd, hsplit]

theorem step_frame {pending next now : List Item} {t : Token} (outer : List Item)
    (h : step scope pending t = .ok (now, next)) :
    step scope (pending ++ .paren :: outer) t = .ok (now, next ++ .paren :: outer) := by
  cases t with
  | number n => cases h; rfl
  | identifier name =>
    simp only [step] at h ⊢
    cases hv : scope.value? name <;> simp only [hv] at h ⊢ <;> cases h <;> rfl
  | symbol s =>
    cases s with
    | comma => cases h; rfl
    | opening => cases h; rfl
    | operator op =>
      cases h
      rw [step, takeWhile_append_cons (goesBefore_paren op),
        dropWhile_append_cons (goesBefore_paren op)]
      rfl
    | closing =>
      simp only [step] at h ⊢
      rw [takeWhile_append_cons rfl, dropWhile_append_cons rfl]
      cases hd : pending.dropWhile (!·.isParen) with
      | nil => simp [hd] at h
      | cons x below =>
        simp only [hd] at h
        cases h
        rfl

/-- What lies under an open parenthesis takes no part in a run above it. -/
theorem run_frame {pending last out : List Item} {tokens : List Token} (outer : List Item)
    (h : run scope pending tokens = .ok (out, last)) :
    run scope (pending ++ .paren :: outer) tokens = .ok (out, last ++ .paren :: outer) := by
  induction tokens generalizing pending out with
  | nil => cases h; rfl
  | cons t rest ih =>
    obtain ⟨now, next, later, hs, hr, rfl⟩ := run_cons_ok h
    rw [run_cons_of_step (step_frame outer hs), ih hr]
    rfl

/-! ## Blocks -/

/-- Wherever the tokens stand, they send out `items` and leave the pending items as they were. -/
def Block (scope : Scope) (tokens : List Token) (items : List Item) : Prop :=
  ∀ pending, run scope pending tokens = .ok (items, pending)

namespace Block

theorem number (scope : Scope) (n : Numeral) : Block scope [.number n] [.number n.value] :=
  fun _ => rfl

theorem name {name : String} {value : Float} (h : scope.value? name = some value) :
    Block scope [.identifier name] [.number value] := by
  intro pending
  simp [run, step, h, bind, Except.bind, pure, Except.pure]

/-- Parentheses make a block of any tokens that have an order. -/
theorem group {tokens : List Token} {items : List Item} (h : ofTokens scope tokens = .ok items) :
    Block scope (.symbol .opening :: tokens ++ [.symbol .closing]) items := by
  intro pending
  obtain ⟨out, waiting, hr, hn, rfl⟩ := ofTokens_eq_ok_iff.1 h
  have hopen : step scope pending (.symbol .opening) = .ok ([], .paren :: pending) := rfl
  have hinside : run scope (.paren :: pending) tokens = .ok (out, waiting ++ .paren :: pending) :=
    run_frame pending hr
  rw [List.cons_append, run_cons_of_step hopen, run_append_of_ok hinside,
    run_cons_of_step (step_closing hn)]
  simp [run, Except.map]

end Block

/-- Two blocks in one place, in scopes that agree on the tokens around them: the orders differ in
that place only, and if there is no order the errors are equal. -/
theorem ofTokens_replace {scope' : Scope} {before after mid mid' : List Token}
    {items items' : List Item} (h : Block scope mid items) (h' : Block scope' mid' items')
    (hbefore : ∀ pending, run scope pending before = run scope' pending before)
    (hafter : ∀ pending, run scope pending after = run scope' pending after) :
    (∃ e, ofTokens scope (before ++ mid ++ after) = .error e ∧
        ofTokens scope' (before ++ mid' ++ after) = .error e) ∨
      ∃ left right, ofTokens scope (before ++ mid ++ after) = .ok (left ++ items ++ right) ∧
        ofTokens scope' (before ++ mid' ++ after) = .ok (left ++ items' ++ right) := by
  simp only [ofTokens, List.append_assoc]
  cases hb : run scope [] before with
  | error e =>
    refine .inl ⟨e, ?_, ?_⟩
    · rw [run_append_of_error hb]; rfl
    · rw [run_append_of_error ((hbefore []).symm.trans hb)]; rfl
  | ok r =>
    obtain ⟨out, pending⟩ := r
    rw [run_append_of_ok hb, run_append_of_ok ((hbefore []).symm.trans hb),
      run_append_of_ok (h pending), run_append_of_ok (h' pending), ← hafter pending]
    cases ha : run scope pending after with
    | error e => exact .inl ⟨e, rfl, rfl⟩
    | ok s =>
      obtain ⟨later, last⟩ := s
      cases hp : last.any Item.isParen with
      | true => exact .inl ⟨_, by simp [Except.map, bind, Except.bind, hp]; rfl,
          by simp [Except.map, bind, Except.bind, hp]; rfl⟩
      | false =>
        exact .inr ⟨out, later ++ last, by simp [Except.map, bind, Except.bind, hp, pure,
          Except.pure], by simp [Except.map, bind, Except.bind, hp, pure, Except.pure]⟩

end Reckoner.Postfix
