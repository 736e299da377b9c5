import Reckoner.Proofs.Refusal

/-!
# The shape of what is pending

An operator that is read sends out what goes before it and then lies on an item that does not
(`Rests`). So no operator lies on a function, and operators that lie on each other bind tighter from
the bottom up, or equally tight in the tier of powers and signs (`Tightens`). A closing parenthesis
uncovers older items, which have lain on each other before; every run keeps the shape
(`isChain_run`).
-/

namespace Reckoner

/-- Whether an operator binds tighter than another, or equally tight in the tier that is taken from
right to left. -/
def Operator.Tightens (upper lower : Operator) : Prop :=
  upper.strength < lower.strength ∨ upper.strength = 2 ∧ lower.strength = 2

namespace Operator

variable {upper lower : Operator}

theorem Tightens.trans {op : Operator} (h : upper.Tightens op) (h' : op.Tightens lower) :
    upper.Tightens lower := by
  unfold Tightens at *
  omega

theorem Tightens.strength_le (h : upper.Tightens lower) : upper.strength ≤ lower.strength := by
  unfold Tightens at h
  omega

theorem strength_eq_two {op : Operator} : op.strength = 2 ↔ op ∈ [pow, pos, neg] := by
  cases op <;> decide

/-- Two operators of one tier lie on each other only in the tier of powers and signs. -/
theorem Tightens.tier (h : upper.Tightens lower) (heq : upper.strength = lower.strength) :
    upper ∈ [pow, pos, neg] ∧ lower ∈ [pow, pos, neg] := by
  rw [← strength_eq_two, ← strength_eq_two]
  unfold Tightens at h
  omega

end Operator

namespace Postfix

variable {scope : Scope}

theorem goesBefore_eq_false_iff {upper lower : Operator} :
    goesBefore upper (.operator lower) = false ↔ upper.Tightens lower := by
  have hassoc := upper.rightAssoc_iff
  simp only [goesBefore, Operator.Tightens, Bool.or_eq_false_iff, decide_eq_false_iff_not,
    Bool.and_eq_false_imp, beq_iff_eq, Bool.not_eq_false', hassoc]
  omega

/-- Whether an item may lie directly on another: an operator only on what does not go before it. -/
def Rests (upper lower : Item) : Prop :=
  ∀ op, upper = .operator op → goesBefore op lower = false

theorem isChain_step {pending now next : List Item} {t : Token} (hp : pending.IsChain Rests)
    (h : step scope pending t = .ok (now, next)) : next.IsChain Rests := by
  have hcons : ∀ {x : Item}, (∀ op, x ≠ .operator op) → (x :: pending).IsChain Rests :=
    fun hx => List.isChain_cons.2 ⟨fun _ _ op hop => absurd hop (hx op), hp⟩
  cases t with
  | number n =>
    cases h
    exact hp
  | identifier name =>
    simp only [step] at h
    cases hvalue : scope.value? name <;> rw [hvalue] at h <;> cases h
    · exact hcons (by simp)
    · exact hp
  | symbol s =>
    cases s with
    | comma =>
      cases h
      exact hp
    | opening =>
      cases h
      exact hcons (by simp)
    | closing =>
      rw [(step_closing_ok h).1] at hp
      exact (List.isChain_append.1 hp).2.1.tail
    | operator op =>
      -- it has sent out everything that it does not rest on
      cases h
      refine List.isChain_cons.2 ⟨fun x hx op' hop' => ?_, hp.suffix (List.dropWhile_suffix _)⟩
      cases hop'
      have hhead := List.head?_dropWhile_not (goesBefore op) pending
      rw [Option.mem_def] at hx
      simpa [hx] using hhead

theorem isChain_run {pending out last : List Item} {tokens : List Token}
    (hp : pending.IsChain Rests) (h : run scope pending tokens = .ok (out, last)) :
    last.IsChain Rests := by
  induction tokens generalizing pending out with
  | nil =>
    cases h
    exact hp
  | cons t rest ih =>
    obtain ⟨now, next, later, hstep, hrest, rfl⟩ := run_cons_ok h
    exact ih (isChain_step hp hstep) hrest

/-! ## What lies on what -/

theorem tightens_of_isChain {upper lower : Operator} {between : List Operator} {below : List Item}
    (h : (Item.operator upper :: (between.map .operator ++ .operator lower :: below)).IsChain
      Rests) : upper.Tightens lower := by
  induction between generalizing upper with
  | nil => exact goesBefore_eq_false_iff.1 ((List.isChain_cons.1 h).1 _ rfl upper rfl)
  | cons op between ih =>
    have hop : upper.Tightens op :=
      goesBefore_eq_false_iff.1 ((List.isChain_cons.1 h).1 _ rfl upper rfl)
    exact hop.trans (ih (List.isChain_cons.1 h).2)

/-! ## Open parentheses -/

theorem parens_step_of_ok {pending now next : List Item} {t : Token}
    (h : step scope pending t = .ok (now, next)) :
    nestToken? (parens pending) t = some (parens next) := by
  have hstep := parens_step scope pending t
  rw [h] at hstep
  cases hn : nestToken? (parens pending) t with
  | none => simp [hn, Except.map] at hstep
  | some depth => simpa [hn, Except.map, eq_comm] using hstep

theorem count_of_nestToken? {depth next : Nat} {t : Token} (h : nestToken? depth t = some next) :
    next + [t].count (.symbol .closing) = depth + [t].count (.symbol .opening) := by
  cases t with
  | number | identifier =>
    cases h
    rfl
  | symbol s =>
    cases s with
    | operator | comma | opening =>
      cases h
      rfl
    | closing =>
      simp only [nestToken?] at h
      split at h
      · cases h
      · cases h
        simp
        omega

theorem parens_run_of_ok {pending out last : List Item} {tokens : List Token}
    (h : run scope pending tokens = .ok (out, last)) :
    parens last + tokens.count (.symbol .closing) =
      parens pending + tokens.count (.symbol .opening) := by
  induction tokens generalizing pending out with
  | nil =>
    cases h
    rfl
  | cons t rest ih =>
    obtain ⟨now, next, later, hstep, hrest, rfl⟩ := run_cons_ok h
    have hnow := count_of_nestToken? (parens_step_of_ok hstep)
    have hlater := ih hrest
    rw [← List.singleton_append, List.count_append, List.count_append]
    omega

/-- After any tokens, no pending operator lies on a function; of two operators with none but
operators between them the upper one is no looser, and as tight only where both are powers or signs;
and there are as many open parentheses as the tokens have opened and not closed. The same items lie
on each other while some of them go out. -/
theorem pending_shape {tokens : List Token} {out pending : List Item}
    (h : run scope [] tokens = .ok (out, pending)) :
    (∀ above below op name, pending ≠ above ++ .operator op :: .function name :: below) ∧
    (∀ (above : List Item) (between : List Operator) below (upper lower : Operator),
      pending = above ++ .operator upper :: (between.map .operator ++ .operator lower :: below) →
        upper.strength ≤ lower.strength ∧
          (upper.strength = lower.strength →
            upper ∈ [.pow, .pos, .neg] ∧ lower ∈ [.pow, .pos, .neg])) ∧
    parens pending + tokens.count (.symbol .closing) = tokens.count (.symbol .opening) := by
  have hchain : pending.IsChain Rests := isChain_run .nil h
  refine ⟨?_, ?_, by simpa [parens] using parens_run_of_ok h⟩
  · rintro above below op name rfl
    have hrests := (List.isChain_cons.1 (List.isChain_append.1 hchain).2.1).1
    cases hrests _ rfl op rfl
  · rintro above between below upper lower rfl
    have htightens := tightens_of_isChain (List.isChain_append.1 hchain).2.1
    exact ⟨htightens.strength_le, htightens.tier⟩

/-- A minus on a power under an open parenthesis; the difference below it has sent out a product and
a function that has no argument. -/
theorem pending_shape_open :
    let number (c : Char) : Token := .number ⟨⟨[c], none⟩, none⟩
    let tokens : List Token := [number '2', .symbol (.operator .mul), .identifier "f",
      .symbol (.operator .sub), .symbol .opening, number '3', .symbol (.operator .pow),
      .symbol (.operator .neg), number '4']
    let out : List Item := [.number 2, .function "f", .operator .mul, .number 3, .number 4]
    let pending : List Item := [.operator .neg, .operator .pow, .paren, .operator .sub]
    tokenize reservedCharacters "2*f-(3^-4" = .ok tokens ∧
      run {} [] tokens = .ok (out, pending) ∧
      (Operator.neg.strength = Operator.pow.strength ∧
        Operator.neg ∈ [Operator.pow, .pos, .neg] ∧ Operator.pow ∈ [Operator.pow, .pos, .neg]) ∧
      parens pending + tokens.count (.symbol .closing) = tokens.count (.symbol .opening) := by
  intro number tokens out pending
  have htokens : tokenize reservedCharacters "2*f-(3^-4" = .ok tokens := by decide +kernel
  have hrun : run {} [] tokens = .ok (out, pending) := by decide +kernel
  obtain ⟨-, htight, hparens⟩ := pending_shape hrun
  have htop := htight [] [] [.paren, .operator .sub] .neg .pow rfl
  exact ⟨htokens, hrun, ⟨rfl, htop.2 rfl⟩, hparens⟩

end Postfix

end Reckoner
