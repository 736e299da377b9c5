import Mathlib.Data.List.Infix
import Reckoner.Proofs.Evaluate
import Reckoner.Proofs.Postfix.Block
import Reckoner.Proofs.Postfix.Depth

/-!
# What refuses an expression

An expression is refused for being empty, for the first reserved character in it or for parentheses
that are not balanced, in this order, and for nothing else before it is evaluated (`refused`).

The parentheses of a text are counted four times over, each time with the same outcome: over the
characters (`nest?_eq_some_iff`), over the tokens that the scanner finds (`nestToken?_scanFrom`),
over the tokens after the passes over signs (`nestToken?_tokensFrom`), and as the open parentheses
among the pending items, whatever else goes out or waits there (`parens_run`).

A character or a name that an error tells of stands in the text (`named_infix_of_evaluate`): the
functions of an order are identifiers of its tokens.
-/

namespace Reckoner

open Postfix

/-! ## Balance -/

/-- Every closing parenthesis closes one that is open, and none is left open. -/
def Balanced (cs : List Char) : Prop :=
  (∀ front, front <+: cs → front.count ')' ≤ front.count '(') ∧ cs.count ')' = cs.count '('

/-- The number of open parentheses after one more character, or nothing where it closes none. -/
def nest? (depth : Nat) (c : Char) : Option Nat :=
  if c = '(' then some (depth + 1)
  else if c = ')' then if depth = 0 then none else some (depth - 1)
  else some depth

theorem nest?_eq_some_iff {cs : List Char} {depth last : Nat} :
    cs.foldlM nest? depth = some last ↔
      (∀ front, front <+: cs → front.count ')' ≤ depth + front.count '(') ∧
        last + cs.count ')' = depth + cs.count '(' := by
  induction cs generalizing depth with
  | nil => simp [eq_comm]
  | cons c rest ih =>
    -- the empty front says nothing, and each other one begins with `c`
    have hfronts : (∀ front, front <+: c :: rest → front.count ')' ≤ depth + front.count '(') ↔
        ∀ front, front <+: rest → (c :: front).count ')' ≤ depth + (c :: front).count '(' := by
      simp only [List.prefix_cons_iff]
      constructor
      · exact fun h front hf => h _ (.inr ⟨front, rfl, hf⟩)
      · rintro h _ (rfl | ⟨front, rfl, hf⟩)
        · simp
        · exact h front hf
    rw [List.foldlM_cons, hfronts]
    by_cases hopen : c = '('
    · subst hopen
      have hnest : nest? depth '(' = some (depth + 1) := rfl
      simp only [hnest, bind, Option.bind_some, ih, List.count_cons]
      simp [Nat.add_assoc, Nat.add_comm 1]
    by_cases hclose : c = ')'
    · subst hclose
      cases depth with
      | zero =>
        have hnest : nest? 0 ')' = none := rfl
        simp only [hnest, bind, Option.bind_none, reduceCtorEq, false_iff, not_and]
        exact fun h => absurd (h [] List.nil_prefix) (by simp)
      | succ d =>
        have hnest : nest? (d + 1) ')' = some d := rfl
        simp only [hnest, bind, Option.bind_some, ih, List.count_cons]
        simp [Nat.add_right_comm d 1, ← Nat.add_assoc]
    · have hnest : nest? depth c = some depth := by simp [nest?, hopen, hclose]
      simp only [hnest, bind, Option.bind_some, ih, List.count_cons]
      simp [hopen, hclose]

theorem balanced_iff {cs : List Char} : Balanced cs ↔ cs.foldlM nest? 0 = some 0 := by
  simp [Balanced, nest?_eq_some_iff]

/-! ## The parentheses of tokens -/

/-- The number of open parentheses after one more token. -/
def nestToken? (depth : Nat) : Token → Option Nat
  | .symbol .opening => some (depth + 1)
  | .symbol .closing => if depth = 0 then none else some (depth - 1)
  | _ => some depth

namespace Token

theorem nestToken?_symbol {c : Char} {s : Symbol} (h : Symbol.ofChar? c = some s) (depth : Nat) :
    nestToken? depth (.symbol s) = nest? depth c := by
  unfold Symbol.ofChar? at h
  split at h <;> cases h <;> rfl

theorem nest?_of_plain {c : Char} (h : Symbol.ofChar? c = none) (depth : Nat) :
    nest? depth c = some depth := by
  have hopen : c ≠ '(' := by rintro rfl; cases h
  have hclose : c ≠ ')' := by rintro rfl; cases h
  simp [nest?, hopen, hclose]

theorem nestToken?_flush (atom : List Char) (depth : Nat) :
    (flush atom).foldlM nestToken? depth = some depth := by
  unfold flush
  split
  · rfl
  · unfold ofAtom
    split <;> rfl

theorem nestToken?_scanFrom (atom cs : List Char) (depth : Nat) :
    (scanFrom atom cs).foldlM nestToken? depth = cs.foldlM nest? depth := by
  induction cs generalizing atom depth with
  | nil => exact nestToken?_flush atom depth
  | cons c rest ih =>
    rw [scanFrom, List.foldlM_cons]
    split
    · rename_i h
      rw [nest?_of_plain h, ih]
      rfl
    · rename_i s h
      split
      · rename_i hcont
        have hsign : nest? depth c = some depth := by
          have h : isSign c = true := by
            simp only [continuesAtom, Bool.and_eq_true] at hcont
            exact hcont.1.1
          simp only [isSign, Bool.or_eq_true, beq_iff_eq] at h
          rcases h with rfl | rfl <;> rfl
        rw [hsign, ih]
        rfl
      · rw [List.foldlM_append, nestToken?_flush]
        simp only [bind, Option.bind, List.foldlM_cons, nestToken?_symbol h, ih]

theorem nestToken?_dropIdlePlus (ts : List Token) (depth : Nat) :
    (dropIdlePlus ts).foldlM nestToken? depth = ts.foldlM nestToken? depth := by
  fun_induction dropIdlePlus ts generalizing depth with
  | case1 rest ih => exact ih depth
  | case2 t rest _ ih => simp only [List.foldlM_cons, ih]
  | case3 => rfl

theorem nestToken?_classifySigns (before : Bool) (ts : List Token) (depth : Nat) :
    (classifySigns before ts).foldlM nestToken? depth = ts.foldlM nestToken? depth := by
  induction ts generalizing before depth with
  | nil => rfl
  | cons t rest ih =>
    have ht : nestToken? depth (if before then t else t.asUnary) = nestToken? depth t := by
      split
      · rfl
      · unfold asUnary
        split <;> rfl
    rw [classifySigns, List.foldlM_cons, List.foldlM_cons, ht]
    simp only [ih]

theorem nestToken?_tokensFrom (before : Bool) (cs : List Char) (depth : Nat) :
    (tokensFrom before cs).foldlM nestToken? depth = cs.foldlM nest? depth := by
  rw [tokensFrom, nestToken?_classifySigns, nestToken?_dropIdlePlus, scan, nestToken?_scanFrom]

end Token

/-! ## The parentheses of pending items -/

namespace Postfix

variable {scope : Scope}

/-- The number of open parentheses among pending items. -/
def parens (pending : List Item) : Nat := pending.countP Item.isParen

theorem parens_cons (x : Item) (pending : List Item) :
    parens (x :: pending) = parens pending + if x.isParen then 1 else 0 := List.countP_cons

/-- Items that are no parentheses go out. -/
theorem parens_dropWhile {p : Item → Bool} (h : ∀ x, p x = true → x.isParen = false)
    (pending : List Item) : parens (pending.dropWhile p) = parens pending := by
  induction pending with
  | nil => rfl
  | cons x rest ih =>
    rw [List.dropWhile_cons]
    split
    · rename_i hx
      simp [ih, parens_cons, h x hx]
    · rfl

theorem isParen_of_goesBefore {op : Operator} {x : Item} (h : goesBefore op x = true) :
    x.isParen = false := by
  cases x with
  | paren => cases h
  | number | operator | function => rfl

theorem parens_step (scope : Scope) (pending : List Item) (t : Token) :
    (step scope pending t).map (fun r => parens r.2) =
      (nestToken? (parens pending) t).elim (.error .mismatchedParenthesis) .ok := by
  cases t with
  | number n => rfl
  | identifier name =>
    simp only [step]
    cases scope.value? name <;> rfl
  | symbol s =>
    cases s with
    | comma => rfl
    | opening => exact congrArg Except.ok (parens_cons .paren pending)
    | operator op =>
      have hrest := parens_dropWhile (fun _ => isParen_of_goesBefore) pending (p := goesBefore op)
      exact congrArg Except.ok ((parens_cons _ _).trans hrest)
    | closing =>
      -- what is dropped is no parenthesis, so the one that is left on top is the innermost
      have hrest := parens_dropWhile (p := (!·.isParen)) (by simp) pending
      have hhead := List.head?_dropWhile_not (!·.isParen) pending
      rw [step, ← hrest]
      cases hd : pending.dropWhile (!·.isParen) with
      | nil => rfl
      | cons x outer =>
        have hx : x.isParen = true := by simpa [hd] using hhead
        simp [nestToken?, Except.map, parens_cons, hx]

theorem parens_run (scope : Scope) (pending : List Item) (tokens : List Token) :
    (run scope pending tokens).map (fun r => parens r.2) =
      (tokens.foldlM nestToken? (parens pending)).elim (.error .mismatchedParenthesis) .ok := by
  induction tokens generalizing pending with
  | nil => rfl
  | cons t rest ih =>
    have hstep := parens_step scope pending t
    rw [List.foldlM_cons]
    cases hs : step scope pending t with
    | error e =>
      rw [hs] at hstep
      cases hn : nestToken? (parens pending) t with
      | none =>
        rw [hn] at hstep
        simpa [run, hs, bind, Except.bind, Except.map] using hstep
      | some depth => simp [hn, Except.map] at hstep
    | ok r =>
      rw [hs] at hstep
      cases hn : nestToken? (parens pending) t with
      | none => simp [hn, Except.map] at hstep
      | some depth =>
        obtain rfl : parens r.2 = depth := by simpa [hn, Except.map] using hstep
        rw [run_cons_of_step hs]
        refine Eq.trans ?_ (ih r.2)
        cases run scope r.2 rest <;> rfl

/-- Balanced tokens have an order, whatever else they are. -/
theorem ofTokens_of_nested {tokens : List Token} (h : tokens.foldlM nestToken? 0 = some 0) :
    ∃ items, ofTokens scope tokens = .ok items := by
  have hrun := parens_run scope [] tokens
  rw [show parens [] = 0 from rfl, h] at hrun
  cases hr : run scope [] tokens with
  | error e => simp [hr, Except.map] at hrun
  | ok r =>
    have hnone : ∀ x ∈ r.2, x.isParen = false := by
      simpa [hr, Except.map, parens, List.countP_eq_zero] using hrun
    exact ⟨r.1 ++ r.2, ofTokens_eq_ok_iff.2 ⟨r.1, r.2, hr, hnone, rfl⟩⟩

theorem ofTokens_of_not_nested {tokens : List Token} (h : tokens.foldlM nestToken? 0 ≠ some 0) :
    ofTokens scope tokens = .error .mismatchedParenthesis := by
  have hrun := parens_run scope [] tokens
  rw [show parens [] = 0 from rfl] at hrun
  unfold ofTokens
  cases hr : run scope [] tokens with
  | error e =>
    cases hn : tokens.foldlM nestToken? 0 with
    | none => simpa [hr, hn, Except.map, bind, Except.bind] using hrun
    | some depth => simp [hr, hn, Except.map] at hrun
  | ok r =>
    have hparen : r.2.any Item.isParen = true := by
      by_contra hnone
      have hzero : parens r.2 = 0 := by simpa [parens, List.countP_eq_zero] using hnone
      cases hn : tokens.foldlM nestToken? 0 with
      | none => simp [hr, hn, Except.map] at hrun
      | some depth =>
        have hdepth : parens r.2 = depth := by simpa [hr, hn, Except.map] using hrun
        exact h (by rw [hn, ← hdepth, hzero])
    simp only [bind, Except.bind, hparen, if_true]
    rfl

/-! ## The errors of a value -/

/-- The errors of an expression that has an order. -/
def IsEvaluationError (e : EvalError) : Prop :=
  e = .invalidExpression ∨ (∃ name, e = .unknownName name) ∨ e = .nonIntegerFactorial

theorem isEvaluationError_value {registry : Registry} {items : List Item} {e : EvalError}
    (h : value registry items = .error e) : IsEvaluationError e :=
  (value_eq_error h).imp_right (.imp_left fun ⟨name, _, he⟩ => ⟨name, he⟩)

/-! ## The functions of an order -/

theorem function_of_step {pending now next : List Item} {t : Token} {name : String}
    (h : step scope pending t = .ok (now, next)) (hname : .function name ∈ now ++ next) :
    .function name ∈ pending ∨ t = .identifier name := by
  cases t with
  | number n =>
    cases h
    exact .inl (by simpa using hname)
  | identifier other =>
    cases hv : scope.value? other <;> simp only [step, hv] at h <;> cases h
    · exact (by simpa using hname : name = other ∨ _).symm.imp_right (by rintro rfl; rfl)
    · exact .inl (by simpa using hname)
  | symbol s =>
    cases s with
    | comma | opening =>
      cases h
      exact .inl (by simpa using hname)
    | operator op =>
      cases h
      rcases List.mem_append.1 hname with hname | hname
      · exact .inl (List.takeWhile_subset _ hname)
      · exact .inl (List.dropWhile_subset _ (by simpa using hname))
    | closing =>
      obtain ⟨hpending, -⟩ := step_closing_ok h
      rw [hpending]
      exact .inl (by simpa using hname)

theorem function_of_run {pending out last : List Item} {tokens : List Token} {name : String}
    (h : run scope pending tokens = .ok (out, last)) (hname : .function name ∈ out ++ last) :
    .function name ∈ pending ∨ .identifier name ∈ tokens := by
  induction tokens generalizing pending out with
  | nil =>
    cases h
    exact .inl (by simpa using hname)
  | cons t rest ih =>
    obtain ⟨now, next, later, hs, hr, rfl⟩ := run_cons_ok h
    have hnext : .function name ∈ now ++ next ∨ .identifier name ∈ rest := by
      rw [List.append_assoc] at hname
      rcases List.mem_append.1 hname with hname | hname
      · exact .inl (List.mem_append_left _ hname)
      · exact (ih hr hname).imp_left (List.mem_append_right _)
    rcases hnext with hname | hname
    · exact (function_of_step hs hname).imp_right (by rintro rfl; exact List.mem_cons_self)
    · exact .inr (List.mem_cons_of_mem _ hname)

/-- The functions of an order are identifiers of the tokens. -/
theorem function_of_ofTokens {tokens : List Token} {items : List Item} {name : String}
    (h : ofTokens scope tokens = .ok items) (hname : .function name ∈ items) :
    .identifier name ∈ tokens := by
  obtain ⟨out, pending, hr, -, rfl⟩ := ofTokens_eq_ok_iff.1 h
  exact (function_of_run hr hname).resolve_left List.not_mem_nil

end Postfix

/-! ## Texts -/

theorem toPostfix_cases (vars : Variables) (text : String) :
    (solid text = [] ∧ toPostfix vars text = .error .emptyInput) ∨
    (∃ c, (solid text).find? reservedCharacters.contains = some c ∧
      toPostfix vars text = .error (.invalidCharacter c)) ∨
    (solid text ≠ [] ∧ (∀ c ∈ solid text, c ∉ reservedCharacters) ∧ ¬ Balanced (solid text) ∧
      toPostfix vars text = .error .mismatchedParenthesis) ∨
    (solid text ≠ [] ∧ (∀ c ∈ solid text, c ∉ reservedCharacters) ∧ Balanced (solid text) ∧
      ∃ items, ofTokens { vars } (Token.tokensFrom false (solid text)) = .ok items ∧
        toPostfix vars text = .ok items) := by
  by_cases hempty : solid text = []
  · refine .inl ⟨hempty, ?_⟩
    rw [solid] at hempty
    simp [toPostfix, tokenize, hempty, bind, Except.bind]
  rw [toPostfix_of_solid vars hempty]
  cases hfind : (solid text).find? reservedCharacters.contains with
  | some c => exact .inr (.inl ⟨c, rfl, rfl⟩)
  | none =>
    have hplain : ∀ c ∈ solid text, c ∉ reservedCharacters := by
      simpa using List.find?_eq_none.1 hfind
    have hnest := Token.nestToken?_tokensFrom false (solid text) 0
    refine .inr (.inr ?_)
    by_cases hb : Balanced (solid text)
    · obtain ⟨items, hitems⟩ := ofTokens_of_nested (hnest.trans (balanced_iff.1 hb))
      exact .inr ⟨hempty, hplain, hb, items, hitems, hitems⟩
    · exact .inl ⟨hempty, hplain, hb,
        ofTokens_of_not_nested fun h => hb (balanced_iff.2 (hnest.symm.trans h))⟩

/-- The part of a text that an error names. -/
def EvalError.named : EvalError → List Char
  | invalidCharacter c => [c]
  | unknownName name => name.toList
  | emptyInput | mismatchedParenthesis | invalidExpression | nonIntegerFactorial => []

theorem named_infix_of_evaluate {vars : Variables} {text : String} {e : EvalError}
    (h : evaluate vars text = .error e) : e.named <:+: solid text := by
  have hevaluate : evaluate vars text = (toPostfix vars text).bind (value .builtin) := rfl
  rw [hevaluate] at h
  rcases toPostfix_cases vars text with ⟨-, ht⟩ | ⟨c, hc, ht⟩ | ⟨-, -, -, ht⟩ |
    ⟨-, -, -, items, htokens, ht⟩ <;> rw [ht] at h
  · cases h
    exact List.nil_infix
  · cases h
    obtain ⟨left, right, hsplit⟩ := List.append_of_mem (List.mem_of_find?_eq_some hc)
    exact ⟨left, right, by simp [EvalError.named, hsplit]⟩
  · cases h
    exact List.nil_infix
  · rcases value_eq_error h with rfl | ⟨name, hname, rfl⟩ | rfl
    · exact List.nil_infix
    · exact Token.infix_of_identifier_mem (function_of_ofTokens htokens hname)
    · exact List.nil_infix

/-- Which texts are refused and why, and what can come of the others. -/
theorem refused (vars : Variables) (text : String) :
    ((evaluate vars text = .error .emptyInput ↔ solid text = []) ∧
      (postfixText vars text = .error .emptyInput ↔ solid text = [])) ∧
    (∀ c, (evaluate vars text = .error (.invalidCharacter c) ↔
        (solid text).find? reservedCharacters.contains = some c) ∧
      (postfixText vars text = .error (.invalidCharacter c) ↔
        (solid text).find? reservedCharacters.contains = some c)) ∧
    ((evaluate vars text = .error .mismatchedParenthesis ↔
        solid text ≠ [] ∧ (∀ c ∈ solid text, c ∉ reservedCharacters) ∧ ¬ Balanced (solid text)) ∧
      (postfixText vars text = .error .mismatchedParenthesis ↔
        solid text ≠ [] ∧ (∀ c ∈ solid text, c ∉ reservedCharacters) ∧
          ¬ Balanced (solid text))) ∧
    (solid text ≠ [] ∧ (∀ c ∈ solid text, c ∉ reservedCharacters) ∧ Balanced (solid text) →
      (∃ order, postfixText vars text = .ok order) ∧
        ((∃ v, evaluate vars text = .ok v) ∨
          ∃ e, evaluate vars text = .error e ∧ IsEvaluationError e)) := by
  have hevaluate : evaluate vars text = (toPostfix vars text).bind (value .builtin) := rfl
  have hpostfix : postfixText vars text = (toPostfix vars text).map render := rfl
  have hnone : (∀ c ∈ solid text, c ∉ reservedCharacters) →
      (solid text).find? reservedCharacters.contains = none := fun h =>
    List.find?_eq_none.2 fun c hc => by simpa using h c hc
  rw [hevaluate, hpostfix]
  have hcases := toPostfix_cases vars text
  generalize hfind : (solid text).find? reservedCharacters.contains = found at hcases hnone ⊢
  -- the four cases exclude each other, so each error has no other cause
  rcases hcases with ⟨ht, h⟩ | ⟨c, rfl, h⟩ | ⟨ht, hp, hb, h⟩ | ⟨ht, hp, hb, items, -, h⟩
  · obtain rfl : none = found := by rw [← hfind, ht]; rfl
    simp [h, ht, Except.bind, Except.map]
  · have ht : solid text ≠ [] := List.ne_nil_of_mem (List.mem_of_find?_eq_some hfind)
    have hp : ¬ ∀ c ∈ solid text, c ∉ reservedCharacters := fun hp => by
      cases hnone hp
    simp [h, ht, eq_false hp, Except.bind, Except.map]
  · simp [h, ht, hb, hnone hp, eq_true hp, Except.bind, Except.map]
  · cases hv : value .builtin items with
    | ok v => simp [h, ht, hv, hnone hp, hb, Except.bind, Except.map]
    | error e =>
      have he := isEvaluationError_value hv
      have hother : e ≠ .emptyInput ∧ (∀ c, e ≠ .invalidCharacter c) ∧
          e ≠ .mismatchedParenthesis := by
        rcases he with rfl | ⟨name, rfl⟩ | rfl <;> simp
      simp [h, ht, hv, hnone hp, hb, he, hother, Except.bind, Except.map]

end Reckoner
