import Reckoner.Proofs.Postfix.Outside
import Reckoner.Proofs.Postfix.Stack

/-!
# Two operands and a comma

A comma is dropped, so two operands keep to themselves only if what the first leaves pending goes
out before the second sends out anything. `Delimited` says so of the tokens, and
`ofTokens_comma_iff` shows that nothing less will do.
-/

namespace Reckoner.Postfix

variable {scope : Scope}

/-! ## The operator in front -/

/-- The operator that tokens begin with, commas and empty parentheses apart; `depth` counts the
parentheses that are open. -/
def leading : (depth : Nat) → List Token → Option Operator
  | 0, .symbol (.operator op) :: _ => some op
  | depth, .symbol .comma :: rest => leading depth rest
  | depth, .symbol .opening :: rest => leading (depth + 1) rest
  | depth + 1, .symbol .closing :: rest => leading depth rest
  | _, _ => none

/-- What goes out before the leading operator goes out first, and the rest is as if it had not been
there. -/
theorem run_of_leading {depth : Nat} {pending out last : List Item} {tokens : List Token}
    {op : Operator} (hop : leading depth tokens = some op)
    (hpop : ∀ x ∈ pending, goesBefore op x = true)
    (h : run scope (.replicate depth .paren) tokens = .ok (out, last)) :
    run scope (.replicate depth .paren ++ pending) tokens = .ok (pending ++ out, last) := by
  -- what stands before the operator sends out nothing and closes each parenthesis that it opens
  fun_induction leading depth tokens generalizing out with
  | case1 op' rest =>
    cases hop
    have hstep : step scope pending (.symbol (.operator op)) = .ok (pending, [.operator op]) := by
      rw [step, List.takeWhile_eq_self_iff.2 hpop, List.dropWhile_eq_nil_iff.2 hpop]
    obtain ⟨now, next, later, hs, hr, rfl⟩ := run_cons_ok h
    cases hs
    change run scope [.operator op] rest = .ok (later, last) at hr
    rw [List.replicate_zero, List.nil_append, run_cons_of_step hstep, hr]
    rfl
  | case2 depth rest ih =>
    obtain ⟨now, next, later, hs, hr, rfl⟩ := run_cons_ok h
    cases hs
    rw [run_cons_of_step rfl, ih hop hr]
    rfl
  | case3 depth rest ih | case4 depth rest ih =>
    obtain ⟨now, next, later, hs, hr, rfl⟩ := run_cons_ok h
    cases hs
    exact (run_cons_of_step rfl).trans (congrArg _ (ih hop hr))
  | case5 => cases hop

/-- A comma is dropped, so two operands keep to themselves if what the first leaves pending goes out
before the second begins. -/
theorem ofTokens_comma {first second : List Token} {out pending items : List Item}
    (hf : run scope [] first = .ok (out, pending)) (hs : ofTokens scope second = .ok items)
    (hgo : ∀ x ∈ pending, (leading 0 second).any (goesBefore · x) = true) :
    ofTokens scope (first ++ .symbol .comma :: second) = .ok (out ++ pending ++ items) := by
  obtain ⟨later, last, hr, hn, rfl⟩ := ofTokens_eq_ok_iff.1 hs
  have hcomma : step scope pending (.symbol .comma) = .ok ([], pending) := rfl
  have hsecond : run scope pending second = .ok (pending ++ later, last) := by
    cases hop : leading 0 second with
    | none =>
      have hnil : pending = [] := List.eq_nil_iff_forall_not_mem.2 fun x hx => by
        simpa [hop] using hgo x hx
      rw [hnil, hr, List.nil_append]
    | some op => exact run_of_leading hop (fun x hx => by simpa [hop] using hgo x hx) hr
  refine ofTokens_eq_ok_iff.2 ⟨out ++ (pending ++ later), last, ?_, hn, by simp⟩
  rw [run_append_of_ok hf, run_cons_of_step hcomma, hsecond]
  rfl

/-! ## Delimited operands -/

/-- What the first of two operands leaves pending goes out before the second begins. -/
def Delimited (scope : Scope) (first second : List Token) : Prop :=
  ∀ x ∈ outside scope 0 first, (leading 0 second).any (goesBefore · x) = true

instance (scope : Scope) (first second : List Token) : Decidable (Delimited scope first second) :=
  inferInstanceAs (Decidable (∀ x ∈ outside scope 0 first, (leading 0 second).any _ = true))

theorem ofTokens_delimited {first second : List Token} {xs ys : List Item}
    (h : Delimited scope first second) (hx : ofTokens scope first = .ok xs)
    (hy : ofTokens scope second = .ok ys) :
    ofTokens scope (first ++ .symbol .comma :: second) = .ok (xs ++ ys) := by
  obtain ⟨out, pending, hr, hn, rfl⟩ := ofTokens_eq_ok_iff.1 hx
  exact ofTokens_comma hr hy fun x hx =>
    h x (((remains_of_run hr hn).mem x hx).resolve_right List.not_mem_nil)

/-! ## Nothing less will do

A sequence with a value starts with a number, and no number waits. So what is pending before the
second operand goes out first only if an operator sends it out before the second operand sends out
anything, and `leading` finds that operator.
-/

def Item.isNumber : Item → Bool
  | .number _ => true
  | _ => false

/-- A number is in front, as in every sequence with a value. -/
def StartsWithNumber (items : List Item) : Prop := ∃ v rest, items = .number v :: rest

theorem not_startsWithNumber {items rest : List Item} (hne : items ≠ [])
    (h : ∀ x ∈ items, x.isNumber = false) : ¬ StartsWithNumber (items ++ rest) := by
  rintro ⟨v, later, heq⟩
  cases items with
  | nil => exact hne rfl
  | cons x items =>
    rw [List.cons_append] at heq
    cases heq
    cases h _ List.mem_cons_self

/-- What a step can do: send out a number, add an item, close a parenthesis or let an operator take
its place. -/
theorem step_cases {pending now next : List Item} {t : Token}
    (h : step scope pending t = .ok (now, next)) :
    ((∃ v, now = [.number v]) ∧ next = pending) ∨
    (now = [] ∧ (next = pending ∨ ∃ x, x.isNumber = false ∧ next = x :: pending)) ∨
    (t = .symbol .closing ∧ pending = now ++ .paren :: next ∧ ∀ x ∈ now, x.isParen = false) ∨
    ∃ op, t = .symbol (.operator op) ∧ now = pending.takeWhile (goesBefore op) ∧
      next = .operator op :: pending.dropWhile (goesBefore op) := by
  cases t with
  | number n => cases h; exact .inl ⟨⟨_, rfl⟩, rfl⟩
  | identifier name =>
    cases hv : scope.value? name <;> simp only [step, hv] at h <;> cases h
    · exact .inr (.inl ⟨rfl, .inr ⟨_, rfl, rfl⟩⟩)
    · exact .inl ⟨⟨_, rfl⟩, rfl⟩
  | symbol s =>
    cases s with
    | comma => cases h; exact .inr (.inl ⟨rfl, .inl rfl⟩)
    | opening => cases h; exact .inr (.inl ⟨rfl, .inr ⟨_, rfl, rfl⟩⟩)
    | operator op => cases h; exact .inr (.inr (.inr ⟨op, rfl, rfl, rfl⟩))
    | closing =>
      obtain ⟨hpending, hn⟩ := step_closing_ok h
      exact .inr (.inr (.inl ⟨rfl, hpending, hn⟩))

/-- No number waits. -/
theorem step_isNumber {pending now next : List Item} {t : Token}
    (h : ∀ x ∈ pending, x.isNumber = false) (hs : step scope pending t = .ok (now, next)) :
    ∀ x ∈ next, x.isNumber = false := by
  rcases step_cases hs with ⟨-, rfl⟩ | ⟨-, rfl | ⟨x, hx, rfl⟩⟩ | ⟨-, rfl, -⟩ | ⟨op, -, -, rfl⟩
  · exact h
  · exact h
  · exact List.forall_mem_cons.2 ⟨hx, h⟩
  · exact fun x hx => h x (List.mem_append_right _ (List.mem_cons_of_mem _ hx))
  · exact List.forall_mem_cons.2 ⟨rfl, fun x hx => h x (List.dropWhile_subset _ hx)⟩

theorem run_isNumber {pending out last : List Item} {tokens : List Token}
    (h : ∀ x ∈ pending, x.isNumber = false) (hr : run scope pending tokens = .ok (out, last)) :
    ∀ x ∈ last, x.isNumber = false := by
  induction tokens generalizing pending out with
  | nil => cases hr; exact h
  | cons t rest ih =>
    obtain ⟨now, next, later, hs, hrest, rfl⟩ := run_cons_ok hr
    exact ih (step_isNumber h hs) hrest

/-- A step sends out what it takes from the pending items, parentheses apart. -/
theorem mem_of_step {pending now next : List Item} {t : Token} {x : Item} (hx : x ∈ pending)
    (hparen : x.isParen = false) (hs : step scope pending t = .ok (now, next)) :
    x ∈ now ∨ x ∈ next := by
  rcases step_cases hs with ⟨-, rfl⟩ | ⟨-, rfl | ⟨y, -, rfl⟩⟩ | ⟨-, rfl, -⟩ | ⟨op, -, rfl, rfl⟩
  · exact .inr hx
  · exact .inr hx
  · exact .inr (List.mem_cons_of_mem _ hx)
  · rcases List.mem_append.1 hx with hx | hx
    · exact .inl hx
    · rcases List.mem_cons.1 hx with rfl | hx
      · cases hparen
      · exact .inr hx
  · rw [← List.takeWhile_append_dropWhile (p := goesBefore op) (l := pending)] at hx
    exact (List.mem_append.1 hx).imp_right (List.mem_cons_of_mem _)

/-- A token reaches what is below a run's own items only as an operator that sends all of them
out. -/
theorem step_below {pending now next : List Item} {t : Token} (below : List Item)
    (h : step scope pending t = .ok (now, next)) :
    step scope (pending ++ below) t = .ok (now, next ++ below) ∨ now = pending := by
  cases t with
  | number n => cases h; exact .inl rfl
  | identifier name =>
    cases hv : scope.value? name <;> simp only [step, hv] at h ⊢ <;> cases h <;> exact .inl rfl
  | symbol s =>
    cases s with
    | comma => cases h; exact .inl rfl
    | opening => cases h; exact .inl rfl
    | closing =>
      obtain ⟨rfl, hn⟩ := step_closing_ok h
      rw [List.append_assoc, List.cons_append, step_closing hn]
      exact .inl rfl
    | operator op =>
      cases h
      by_cases hall : ∀ x ∈ pending, goesBefore op x = true
      · exact .inr (List.takeWhile_eq_self_iff.2 hall)
      · simp only [not_forall, Bool.not_eq_true] at hall
        obtain ⟨x, hx, hstays⟩ := hall
        obtain ⟨above, under, rfl⟩ := List.append_of_mem hx
        refine .inl ?_
        simp only [step, List.append_assoc, List.cons_append, takeWhile_append_cons hstays,
          dropWhile_append_cons hstays]

/-- A run does not get below an operator or a function of its own while no number has been sent
out. -/
theorem run_below {pending out last below out' last' : List Item} {tokens : List Token} {x : Item}
    (hnum : ∀ x ∈ pending, x.isNumber = false) (hx : x ∈ pending) (hparen : x.isParen = false)
    (h : run scope pending tokens = .ok (out, last)) (hstart : StartsWithNumber (out ++ last))
    (h' : run scope (pending ++ below) tokens = .ok (out', last')) :
    StartsWithNumber (out' ++ last') := by
  have hne : pending ≠ [] := List.ne_nil_of_mem hx
  -- nothing goes out before a number, so `x` stays on the stack of the run until there is one
  induction tokens generalizing pending out out' with
  | nil =>
    have hno : ¬ StartsWithNumber (pending ++ []) := not_startsWithNumber hne hnum
    cases h
    rw [List.append_nil] at hno
    exact absurd hstart hno
  | cons t rest ih =>
    obtain ⟨now, next, later, hs, hr, rfl⟩ := run_cons_ok h
    rcases step_below below hs with hsame | rfl
    · rw [run_cons_of_step hsame] at h'
      cases hr' : run scope (next ++ below) rest with
      | error e => simp [hr', Except.map] at h'
      | ok r =>
        simp only [hr', Except.map] at h'
        cases h'
        cases now with
        | nil =>
          have hx' : x ∈ next := (mem_of_step hx hparen hs).resolve_left List.not_mem_nil
          exact ih (step_isNumber hnum hs) hx' hr hstart hr' (List.ne_nil_of_mem hx')
        | cons y now =>
          obtain ⟨v, items, heq⟩ := hstart
          cases heq
          exact ⟨v, _, rfl⟩
    · -- all that is pending has been sent out, and nothing of it is a number
      rw [List.append_assoc] at hstart
      exact absurd hstart (not_startsWithNumber hne hnum)

/-- What an operator leaves below itself does not go out before a number. -/
theorem operator_sends_all {op : Operator} {pending later last later' last' : List Item}
    {rest : List Token} (hnum : ∀ x ∈ pending, x.isNumber = false)
    (hr : run scope [.operator op] rest = .ok (later, last))
    (hstart : StartsWithNumber (later ++ last))
    (hr' : run scope (.operator op :: pending.dropWhile (goesBefore op)) rest = .ok (later', last'))
    (heq : pending.takeWhile (goesBefore op) ++ later' ++ last' = pending ++ (later ++ last)) :
    ∀ x ∈ pending, goesBefore op x = true := by
  refine List.dropWhile_eq_nil_iff.1 (Decidable.byContradiction fun hd => ?_)
  have hown : ∀ x ∈ [Item.operator op], x.isNumber = false := by simp [Item.isNumber]
  have hstays : StartsWithNumber (later' ++ last') :=
    run_below hown List.mem_cons_self rfl hr hstart hr'
  have hbehind : later' ++ last' = pending.dropWhile (goesBefore op) ++ (later ++ last) := by
    refine (List.append_right_inj (pending.takeWhile (goesBefore op))).1 ?_
    rw [← List.append_assoc, ← List.append_assoc, List.takeWhile_append_dropWhile]
    exact heq
  have hleft : ∀ x ∈ pending.dropWhile (goesBefore op), x.isNumber = false :=
    fun x hx => hnum x (List.dropWhile_subset _ hx)
  exact not_startsWithNumber hd hleft (hbehind ▸ hstays)

/-- If the pending items go out before anything else, an operator has sent them out. -/
theorem leading_of_run {depth : Nat} {pending out last out' last' : List Item}
    {tokens : List Token} (hne : pending ≠ []) (hnum : ∀ x ∈ pending, x.isNumber = false)
    (h : run scope (.replicate depth .paren) tokens = .ok (out, last))
    (hstart : StartsWithNumber (out ++ last))
    (h' : run scope (.replicate depth .paren ++ pending) tokens = .ok (out', last'))
    (heq : out' ++ last' = pending ++ (out ++ last)) :
    ∃ op, leading depth tokens = some op ∧ ∀ x ∈ pending, goesBefore op x = true := by
  have hno : ¬ StartsWithNumber (out' ++ last') := heq ▸ not_startsWithNumber hne hnum
  have hparens : ∀ depth : Nat, ∀ x ∈ List.replicate depth Item.paren, x.isNumber = false :=
    fun depth x hx => by rw [List.eq_of_mem_replicate hx]; rfl
  -- the runs with and without what is pending go side by side; `depth` counts the parentheses
  -- that are open in both
  induction tokens generalizing depth out out' with
  | nil =>
    cases h
    cases depth with
    | zero => exact absurd hstart (by simp [StartsWithNumber])
    | succ depth => exact absurd hstart (by simp [StartsWithNumber, List.replicate_succ])
  | cons t rest ih =>
    obtain ⟨now, next, later, hs, hr, rfl⟩ := run_cons_ok h
    obtain ⟨now', next', later', hs', hr', rfl⟩ := run_cons_ok h'
    cases t with
    | number n =>
      cases hs'
      exact absurd ⟨_, _, rfl⟩ hno
    | identifier name =>
      cases hv : scope.value? name <;> simp only [step, hv] at hs hs' <;> cases hs <;> cases hs'
      · have hown : ∀ x ∈ Item.function name :: .replicate depth .paren, x.isNumber = false :=
          List.forall_mem_cons.2 ⟨rfl, hparens depth⟩
        exact absurd (run_below hown List.mem_cons_self rfl hr hstart hr') hno
      · exact absurd ⟨_, _, rfl⟩ hno
    | symbol s =>
      cases s with
      | comma =>
        cases hs
        cases hs'
        rw [leading]
        exact ih hr hstart hr' heq hno
      | opening =>
        cases hs
        cases hs'
        rw [leading]
        have hown : run scope (.replicate (depth + 1) .paren) rest = .ok (later, last) := hr
        have hboth : run scope (.replicate (depth + 1) .paren ++ pending) rest =
            .ok (later', last') := hr'
        exact ih hown hstart hboth heq hno
      | closing =>
        cases depth with
        | zero => cases hs
        | succ depth =>
          cases hs
          cases hs'
          exact ih hr hstart hr' heq hno
      | operator op =>
        cases hs
        cases hs'
        cases depth with
        | succ depth =>
          have hown : ∀ x ∈ Item.operator op :: .replicate (depth + 1) .paren,
              x.isNumber = false := List.forall_mem_cons.2 ⟨rfl, hparens (depth + 1)⟩
          exact absurd (run_below hown List.mem_cons_self rfl hr hstart hr') hno
        | zero =>
          exact ⟨op, rfl, operator_sends_all hnum hr hstart hr' heq⟩

theorem startsWithNumber_of_value {items : List Item} {v : Float}
    (h : value .builtin items = .ok v) : StartsWithNumber items := by
  rw [value_eq_ok_iff] at h
  cases items with
  | nil => cases h
  | cons x rest =>
    rw [List.foldlM_cons] at h
    cases x with
    | number u => exact ⟨u, rest, rfl⟩
    | paren => cases h
    | operator op =>
      have harity : ([] : List Float).length < op.arity := op.arity_pos
      rw [reduce, takeOperands?_of_lt harity] at h
      cases h
    | function name =>
      cases hl : Registry.builtin.lookup name with
      | none => simp [reduce, hl, bind, Except.bind] at h
      | some f =>
        have harity : ([] : List Float).length < f.arity := Registry.arity_pos hl
        simp [reduce, hl, takeOperands?_of_lt harity, bind, Except.bind] at h

/-- Exactly the delimited operands keep to themselves: the order of both with a comma between them
is the order of the first and then the order of the second. -/
theorem ofTokens_comma_iff {first second : List Token} {xs ys : List Item} {v : Float}
    (hx : ofTokens scope first = .ok xs) (hy : ofTokens scope second = .ok ys)
    (hv : value .builtin ys = .ok v) :
    ofTokens scope (first ++ .symbol .comma :: second) = .ok (xs ++ ys) ↔
      Delimited scope first second := by
  obtain ⟨out, pending, hr, hn, rfl⟩ := ofTokens_eq_ok_iff.1 hx
  have hremains := remains_of_run hr hn
  constructor
  · intro h x hxo
    obtain ⟨p, hp, hout⟩ := hremains.outlasted x (.inl hxo)
    obtain ⟨later, last, hrun, -, rfl⟩ := ofTokens_eq_ok_iff.1 hy
    obtain ⟨out', last', hrun', -, heq⟩ := ofTokens_eq_ok_iff.1 h
    have hcomma : step scope pending (.symbol .comma) = .ok ([], pending) := rfl
    rw [run_append_of_ok hr, run_cons_of_step hcomma] at hrun'
    cases hboth : run scope pending second with
    | error e => simp [hboth, Except.map] at hrun'
    | ok r =>
      obtain ⟨later', last''⟩ := r
      simp only [hboth, Except.map] at hrun'
      cases hrun'
      rw [List.nil_append, List.append_assoc, List.append_assoc] at heq
      have hown : run scope (.replicate 0 .paren) second = .ok (later, last) := hrun
      have hbelow : run scope (.replicate 0 .paren ++ pending) second = .ok (later', last') := hboth
      obtain ⟨op, hop, hgo⟩ := leading_of_run (List.ne_nil_of_mem hp) (run_isNumber (by simp) hr)
        hown (startsWithNumber_of_value hv) hbelow (List.append_cancel_left heq).symm
      -- `x` is out before `p`: what sends `p` out would have sent `x` out too
      rw [hop]
      exact hout op (hgo p hp)
  · intro h
    exact ofTokens_delimited h hx hy

end Reckoner.Postfix
