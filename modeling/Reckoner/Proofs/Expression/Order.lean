import Reckoner.Proofs.Expression.Basic
import Reckoner.Proofs.Postfix.Comma

/-!
# The order of an expression

The tokens of an expression are put into the post-order of its tree (`ofTokens_tokens`).

While the tokens of a tier are taken, its operators leave alone what was pending before them
(`Holds`), and what they leave pending themselves goes out before any operator that may follow
(`Gives`). Both are kept by an operator between two tiers (`Compiles.operation`), which covers the
signs and the factorial too, as operators with nothing on one side.
-/

namespace Reckoner

open Postfix

namespace Tier

/-- The loosest operator of a tier, parts in parentheses apart. -/
def inner : Tier → Nat
  | sum => 4
  | term => 3
  | signed | power => 2
  | factorial => 1
  | primary | closed => 0

/-- The tightest operator that may follow a member of a tier. -/
def outer : Tier → Nat
  | sum => 4
  | term | signed | power => 3
  | factorial | primary | closed => 1

end Tier

namespace Postfix

variable {scope : Scope} {t : Tier}

/-! ## Pending items -/

/-- No operator up to a strength sends out any of the pending items. -/
def Holds (strength : Nat) (pending : List Item) : Prop :=
  ∀ op : Operator, op.strength ≤ strength → ∀ x ∈ pending.head?, goesBefore op x = false

/-- Every operator from a strength on sends out all of the items. -/
def Gives (strength : Nat) (waiting : List Item) : Prop :=
  ∀ op : Operator, strength ≤ op.strength → ∀ x ∈ waiting, goesBefore op x = true

theorem Holds.mono {k l : Nat} {pending : List Item} (h : Holds l pending) (hkl : k ≤ l) :
    Holds k pending :=
  fun op hop => h op (Nat.le_trans hop hkl)

theorem Gives.mono {k l : Nat} {waiting : List Item} (h : Gives k waiting) (hkl : k ≤ l) :
    Gives l waiting :=
  fun op hop => h op (Nat.le_trans hkl hop)

theorem Holds.nil (k : Nat) : Holds k [] := by simp [Holds]

theorem Gives.nil (k : Nat) : Gives k [] := by simp [Gives]

theorem Holds.zero (pending : List Item) : Holds 0 pending := by
  intro op hop
  cases op <;> cases hop

/-- An operator sends out what goes before it, down to the first item that does not. -/
theorem step_operator {op : Operator} {k l : Nat} {waiting pending : List Item}
    (hw : Gives k waiting) (hp : Holds l pending) (hk : k ≤ op.strength) (hl : op.strength ≤ l) :
    step scope (waiting ++ pending) (.symbol (.operator op)) =
      .ok (waiting, .operator op :: pending) := by
  have hpop : ∀ x ∈ waiting, goesBefore op x = true := hw op hk
  rw [step, List.takeWhile_append_of_pos hpop, List.dropWhile_append_of_pos hpop]
  cases pending with
  | nil => simp
  | cons x pending =>
    have hx : ¬ goesBefore op x = true := by simp [hp op hl x rfl]
    rw [List.takeWhile_cons_of_neg hx, List.dropWhile_cons_of_neg hx, List.append_nil]

/-! ## Operators between tiers -/

/-- A pending operator stays where it binds looser, and in its own tier where that is taken from
right to left. -/
theorem goesBefore_eq_false {op op' : Operator} {k : Nat} (hle : op'.strength ≤ k)
    (h : k < op.strength ∨ k = op.strength ∧ op.rightAssoc = true) :
    goesBefore op' (.operator op) = false := by
  have hassoc := op.rightAssoc_iff
  have hassoc' := op'.rightAssoc_iff
  simp only [goesBefore, Bool.or_eq_false_iff, decide_eq_false_iff_not, Bool.and_eq_false_imp,
    beq_iff_eq, Bool.not_eq_false']
  refine ⟨by omega, fun heq => ?_⟩
  rcases h with h | ⟨-, h⟩
  · omega
  · exact hassoc'.2 (heq ▸ hassoc.1 h)

/-- A pending operator goes out where it binds tighter, and in its own tier where that is taken from
left to right. -/
theorem goesBefore_eq_true {op op' : Operator} {k : Nat} (hle : k ≤ op'.strength)
    (h : op.strength < k ∨ op.strength = k ∧ op.rightAssoc = false) :
    goesBefore op' (.operator op) = true := by
  have hassoc := op.rightAssoc_iff
  have hassoc' := op'.rightAssoc_iff
  simp only [goesBefore, Bool.or_eq_true, decide_eq_true_eq, Bool.and_eq_true, beq_iff_eq,
    Bool.not_eq_true']
  rcases h with h | ⟨hk, h⟩
  · exact .inl (by omega)
  · rcases Nat.lt_or_eq_of_le (hk ▸ hle) with hlt | heq
    · exact .inl hlt
    · refine .inr ⟨heq, Bool.eq_false_iff.2 fun hr => ?_⟩
      have h2 : op.rightAssoc = true := hassoc.2 (heq ▸ hassoc'.1 hr)
      rw [h] at h2
      cases h2

/-- An operator between members of two tiers makes a member of a third: it sends out what its left
operand leaves pending, holds back the operators of its right operand, and goes out itself before
what may follow. -/
structure Joins (op : Operator) (left right result : Tier) : Prop where
  notClosed : result ≠ .closed
  leftInner : left.inner ≤ result.inner
  leftOuter : left.outer ≤ op.strength
  strength : op.strength ≤ result.inner
  rightInner : right.inner < op.strength ∨ right.inner = op.strength ∧ op.rightAssoc = true
  rightOuter : right.outer ≤ result.outer
  outer : op.strength < result.outer ∨ op.strength = result.outer ∧ op.rightAssoc = false

theorem joins_sum (s : Sign) : Joins s.binary .sum .term .sum := by
  cases s <;> constructor <;> decide

theorem joins_product (o : Scaling) : Joins o.operator .term .signed .term := by
  cases o <;> constructor <;> decide

theorem joins_power : Joins .pow .factorial .signed .power := by
  constructor <;> decide

/-- A sign has nothing on its left. -/
theorem joins_signed (s : Sign) : Joins s.unary .closed .signed .signed := by
  cases s <;> constructor <;> decide

/-- A factorial has nothing on its right. -/
theorem joins_factorial : Joins .fact .factorial .closed .factorial := by
  constructor <;> decide

/-! ## Members of a tier -/

/-- What the tokens of a tier send out and what they leave pending are together `items`; a closed
expression leaves nothing pending. -/
def Compiles (scope : Scope) (t : Tier) (tokens : List Token) (items : List Item) : Prop :=
  ∀ pending, Holds t.inner pending → ∃ out waiting,
    run scope pending tokens = .ok (out, waiting ++ pending) ∧ out ++ waiting = items ∧
      Gives t.outer waiting ∧ (t = .closed → waiting = [])

theorem Block.compiles {tokens : List Token} {items : List Item} (h : Block scope tokens items)
    (t : Tier) : Compiles scope t tokens items := fun pending _ =>
  ⟨items, [], h pending, List.append_nil items, .nil _, fun _ => rfl⟩

namespace Compiles

variable {tokens : List Token} {items : List Item}

theorem nothing : Compiles scope t [] [] := fun _ _ => ⟨[], [], rfl, rfl, .nil _, fun _ => rfl⟩

theorem block (h : Compiles scope .closed tokens items) : Block scope tokens items := by
  intro pending
  obtain ⟨out, waiting, hr, rfl, -, hw⟩ := h pending (.zero pending)
  rw [hr, hw rfl, List.append_nil, List.nil_append]

theorem ofTokens_eq (h : Compiles scope t tokens items) : ofTokens scope tokens = .ok items := by
  obtain ⟨out, waiting, hr, rfl, hw, -⟩ := h [] (.nil _)
  rw [List.append_nil] at hr
  refine ofTokens_eq_ok_iff.2 ⟨out, waiting, hr, fun x hx => ?_, rfl⟩
  have hgoes := hw .add (by cases t <;> decide) x hx
  cases x with
  | paren => cases hgoes
  | number | operator | function => rfl

theorem group (h : Compiles scope .sum tokens items) :
    Block scope (.symbol .opening :: tokens ++ [.symbol .closing]) items :=
  .group h.ofTokens_eq

/-- Parentheses around two operands, with a comma between them. -/
theorem pair {first second : List Token} {xs ys : List Item}
    (hfirst : Compiles scope .closed first xs) (hsecond : Compiles scope .sum second ys) :
    Block scope (.symbol .opening :: (first ++ .symbol .comma :: second) ++ [.symbol .closing])
      (xs ++ ys) := by
  have h := ofTokens_comma (hfirst.block []) hsecond.ofTokens_eq (by simp)
  rw [List.append_nil] at h
  exact .group h

theorem call {f : String} (hf : scope.value? f = none) (h : Block scope tokens items) :
    Compiles scope .primary (.identifier f :: tokens) (items ++ [.function f]) := by
  intro pending _
  have hstep : step scope pending (.identifier f) = .ok ([], .function f :: pending) := by
    simp only [step, hf]
  refine ⟨items, [.function f], ?_, rfl, ?_, by simp⟩
  · rw [run_cons_of_step hstep, h]
    rfl
  · intro op _ x hx
    rw [List.mem_singleton.1 hx]
    rfl

theorem loosen {t' : Tier} (h : Compiles scope t tokens items) (hinner : t.inner ≤ t'.inner)
    (houter : t.outer ≤ t'.outer) (hclosed : t' ≠ .closed) : Compiles scope t' tokens items := by
  intro pending hp
  obtain ⟨out, waiting, hr, rfl, hw, -⟩ := h pending (hp.mono hinner)
  exact ⟨out, waiting, hr, rfl, hw.mono houter, fun h => absurd h hclosed⟩

theorem operation {op : Operator} {left right : Tier} {ls rs : List Token} {xs ys : List Item}
    (hop : Joins op left right t) (hl : Compiles scope left ls xs)
    (hr : Compiles scope right rs ys) :
    Compiles scope t (ls ++ .symbol (.operator op) :: rs) (xs ++ ys ++ [.operator op]) := by
  intro pending hp
  obtain ⟨out, waiting, hrun, rfl, hw, -⟩ := hl pending (hp.mono hop.leftInner)
  have hstep : step scope (waiting ++ pending) (.symbol (.operator op)) =
      .ok (waiting, .operator op :: pending) := step_operator hw hp hop.leftOuter hop.strength
  -- the new operator holds back those of its right operand
  have hp' : Holds right.inner (.operator op :: pending) := by
    intro op' hle x hx
    cases hx
    exact goesBefore_eq_false hle hop.rightInner
  obtain ⟨out', waiting', hrun', rfl, hw', -⟩ := hr (.operator op :: pending) hp'
  refine ⟨out ++ (waiting ++ out'), waiting' ++ [.operator op], ?_, by simp, ?_,
    fun h => absurd h hop.notClosed⟩
  · rw [run_append_of_ok hrun, run_cons_of_step hstep, hrun']
    simp [Except.map]
  · intro op' hle x hx
    rcases List.mem_append.1 hx with hx | hx
    · exact hw' op' (Nat.le_trans hop.rightOuter hle) x hx
    · rw [List.mem_singleton.1 hx]
      exact goesBefore_eq_true hle hop.outer

end Compiles

end Postfix

/-! ## Trees -/

namespace Expr

variable {words : Vocabulary} {scope : Scope}

theorem compiles (hwords : words.FitsIn scope) {t : Tier} (e : Expr words t) :
    Compiles scope t e.tokens (e.postorder scope) := by
  -- each constructor is a block, a member of a tighter tier or an operator between two tiers
  induction e with
  | number n h => exact (Block.number scope n).compiles _
  | name x h =>
    obtain ⟨v, hv⟩ := hwords.operand x h
    rw [postorder, Scope.resolve_eq, hv]
    exact (Block.name hv).compiles _
  | group e ih => exact ih.group.compiles _
  | closed e ih | primary e ih | operand e ih | unsigned e ih | factor e ih | term e ih =>
    exact ih.loosen (by decide) (by decide) (by decide)
  | call f h e ih =>
    have hf := hwords.function 1 f h
    rw [postorder, Scope.resolve_eq, hf]
    exact .call hf ih.group
  | callPair f h first second ih₁ ih₂ =>
    have hf := hwords.function 2 f h
    rw [postorder, Scope.resolve_eq, hf]
    exact .call hf (ih₁.pair ih₂)
  | factorial e ih =>
    simpa [tokens, spell, postorder] using ih.operation joins_factorial .nothing
  | power base exponent ih₁ ih₂ => exact .operation joins_power ih₁ ih₂
  | signed s e ih =>
    exact .operation (joins_signed s) .nothing ih
  | product left o right ih₁ ih₂ => exact .operation (joins_product o) ih₁ ih₂
  | sum left s right ih₁ ih₂ => exact .operation (joins_sum s) ih₁ ih₂

end Expr

/-- The tokens of an expression are put into its post-order, in every scope. -/
theorem ofTokens_tokens (scope : Scope) (e : Expr scope.vocabulary .sum) :
    ofTokens scope e.tokens = .ok (e.postorder scope) :=
  (e.compiles scope.vocabulary_fitsIn).ofTokens_eq

end Reckoner
