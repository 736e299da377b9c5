import Reckoner.Proofs.Double.Packing
import Reckoner.Proofs.Expression.Text
import Reckoner.Proofs.Token.Sign

/-!
# Idle pluses in an expression

Dropping the pluses that stand before a minus makes the tokens of another tree (`Expr.settle`):
`1+-2*3` becomes `1-2*3`, where the minus belongs to the whole term. The signs of that tree are then
told apart as they were meant (`Expr.classifySigns_dropIdlePlus`), and both trees have the same
value, since a minus passes through a term (`Expr.value?_settle`).
-/

namespace Reckoner

open Token

namespace Expr

variable {words : Vocabulary} {t : Tier} {scope : Scope} {registry : Registry}

/-! ## Trees -/

/-- Whether a term begins with a minus. -/
def leadsMinus {t : Tier} : Expr words t → Bool
  | signed .minus _ => true
  | factor e => e.leadsMinus
  | product left _ _ => left.leadsMinus
  | _ => false

/-- A term without the minus that it begins with. -/
def dropMinus {t : Tier} : Expr words t → Expr words t
  | signed .minus e => e
  | factor e => factor e.dropMinus
  | product left o right => product left.dropMinus o right
  | e => e

/-- The tree that is left when idle pluses are dropped. -/
def settle {t : Tier} : Expr words t → Expr words t
  | number n h => number n h
  | name x h => name x h
  | group e => group e.settle
  | closed e => closed e.settle
  | call f h e => call f h e.settle
  | callPair f h first second => callPair f h first.settle second.settle
  | primary e => primary e.settle
  | factorial e => factorial e.settle
  | operand e => operand e.settle
  | power base exponent => power base.settle exponent.settle
  | unsigned e => unsigned e.settle
  | signed .plus e => if e.leadsMinus then e.settle else signed .plus e.settle
  | signed .minus e => signed .minus e.settle
  | factor e => factor e.settle
  | product left o right => product left.settle o right.settle
  | term e => term e.settle
  | sum left .plus right =>
    if right.leadsMinus then sum left.settle .minus right.settle.dropMinus
    else sum left.settle .plus right.settle
  | sum left .minus right => sum left.settle .minus right.settle

theorem leadsMinus_settle {e : Expr words t} (h : e.leadsMinus = true) :
    e.settle.leadsMinus = true := by
  induction e with
  | signed s e ih =>
    cases s with
    | plus => cases h
    | minus => rfl
  | factor e ih => exact ih h
  | product left o right ih _ => exact ih h
  | _ => cases h

/-! ## Values -/

/-- A minus at the start of a term is a minus before the whole term. -/
theorem value?_of_leadsMinus {e : Expr words t} (h : e.leadsMinus = true) :
    e.value? scope registry = (e.dropMinus.value? scope registry).map Neg.neg := by
  induction e with
  | signed s e ih =>
    cases s with
    | plus => cases h
    | minus =>
      rw [value?, dropMinus]
      cases e.value? scope registry <;> rfl
  | factor e ih => exact ih h
  | product left o right ih _ =>
    have hneg : ∀ x y, o.join (-x) y = -o.join x y := by
      cases o
      · exact Double.neg_mul
      · exact Double.neg_div
    rw [value?, dropMinus, value?, ih h]
    cases left.dropMinus.value? scope registry with
    | none => rfl
    | some x =>
      cases right.value? scope registry with
      | none => rfl
      | some y => exact congrArg some (hneg x y)
  | _ => cases h

/-- Dropping idle pluses does not change the value. -/
theorem value?_settle (e : Expr words t) :
    e.settle.value? scope registry = e.value? scope registry := by
  induction e with
  | number | name => rfl
  | group e ih | closed e ih | primary e ih | operand e ih | unsigned e ih | factor e ih
  | term e ih => exact ih
  | call f h e ih | factorial e ih => rw [settle, value?, ih, value?]
  | callPair f h e₁ e₂ ih₁ ih₂ | power e₁ e₂ ih₁ ih₂ => rw [settle, value?, ih₁, ih₂, value?]
  | product left o right ih₁ ih₂ => rw [settle, value?, ih₁, ih₂, value?]
  | signed s e ih =>
    have hplus : (signed .plus e).value? scope registry = e.value? scope registry := by
      rw [value?]
      cases e.value? scope registry <;> rfl
    cases s with
    | plus =>
      rw [settle, hplus, ← ih]
      split
      · rfl
      · rw [value?]
        cases e.settle.value? scope registry <;> rfl
    | minus => rw [settle, value?, ih, value?]
  | sum left s right ih₁ ih₂ =>
    cases s with
    | plus =>
      rw [settle]
      split
      · -- the plus is idle: adding the opposite is the difference that is left
        rename_i h
        rw [value?, value?, ih₁, ← ih₂, value?_of_leadsMinus (leadsMinus_settle h)]
        cases left.value? scope registry with
        | none => rfl
        | some x =>
          cases right.settle.dropMinus.value? scope registry with
          | none => rfl
          | some y => exact congrArg some (Double.add_neg x y).symm
      · rw [value?, value?, ih₁, ih₂]
    | minus => rw [settle, value?, ih₁, ih₂, value?]

/-! ## Tokens -/

theorem rawTokens_of_leadsMinus {e : Expr words t} (h : e.leadsMinus = true) :
    e.rawTokens = .symbol (.operator .sub) :: e.dropMinus.rawTokens := by
  unfold rawTokens
  induction e with
  | signed s e ih =>
    cases s with
    | plus => cases h
    | minus => rfl
  | factor e ih => exact ih h
  | product left o right ih _ => rw [spell, ih h, dropMinus, spell, List.cons_append]
  | _ => cases h

/-- A term that begins with no minus has another token first; of a sum `leadsMinus` says nothing. -/
theorem rawTokens_of_not_leadsMinus {e : Expr words t} (h : e.leadsMinus = false) (ht : t ≠ .sum) :
    ∃ first rest, e.rawTokens = first :: rest ∧ first ≠ .symbol (.operator .sub) := by
  unfold rawTokens
  induction e with
  | number | name | group | call | callPair => exact ⟨_, _, rfl, by simp⟩
  | closed e ih | primary e ih | operand e ih | unsigned e ih =>
    exact ih (by cases e <;> rfl) (by simp)
  | factor e ih => exact ih h (by simp)
  | factorial e ih =>
    obtain ⟨first, rest, he, hne⟩ := ih (by cases e <;> rfl) (by simp)
    exact ⟨first, _, by rw [spell, he, List.cons_append], hne⟩
  | power base exponent ih _ =>
    obtain ⟨first, rest, he, hne⟩ := ih (by cases base <;> rfl) (by simp)
    exact ⟨first, _, by rw [spell, he, List.cons_append], hne⟩
  | product left o right ih _ =>
    obtain ⟨first, rest, he, hne⟩ := ih h (by simp)
    exact ⟨first, _, by rw [spell, he, List.cons_append], hne⟩
  | signed s e ih =>
    cases s with
    | plus => exact ⟨_, _, rfl, by simp [Sign.binary]⟩
    | minus => cases h
  | term | sum => exact absurd rfl ht

/-- What is left of a plus before a term. -/
theorem dropIdlePlus_plus {e : Expr words t} (ht : t ≠ .sum) (rest : List Token) :
    dropIdlePlus (.symbol (.operator .add) :: (e.rawTokens ++ rest)) =
      if e.leadsMinus then dropIdlePlus (e.rawTokens ++ rest)
      else .symbol (.operator .add) :: dropIdlePlus (e.rawTokens ++ rest) := by
  cases h : e.leadsMinus with
  | true =>
    rw [rawTokens_of_leadsMinus h, List.cons_append, dropIdlePlus]
    rfl
  | false =>
    obtain ⟨first, later, he, hne⟩ := rawTokens_of_not_leadsMinus h ht
    rw [he, List.cons_append, dropIdlePlus_cons_cons hne]
    rfl

theorem dropIdlePlus_append (e : Expr words t) (rest : List Token) :
    dropIdlePlus (e.rawTokens ++ rest) = e.settle.rawTokens ++ dropIdlePlus rest := by
  have hplus := @dropIdlePlus_plus words
  unfold rawTokens at hplus ⊢
  induction e generalizing rest with
  | number | name => exact dropIdlePlus_cons (by simp) rest
  | closed e ih | primary e ih | operand e ih | unsigned e ih | factor e ih | term e ih =>
    exact ih rest
  | group e ih =>
    simp only [spell, settle, List.append_assoc, List.cons_append, List.nil_append]
    rw [dropIdlePlus_cons (by simp), ih, dropIdlePlus_cons (by simp)]
  | call f h e ih =>
    simp only [spell, settle, List.append_assoc, List.cons_append, List.nil_append]
    rw [dropIdlePlus_cons (by simp), dropIdlePlus_cons (by simp), ih,
      dropIdlePlus_cons (by simp)]
  | callPair f h first second ih₁ ih₂ =>
    simp only [spell, settle, List.append_assoc, List.cons_append, List.nil_append]
    rw [dropIdlePlus_cons (by simp), dropIdlePlus_cons (by simp), ih₁,
      dropIdlePlus_cons (by simp), ih₂, dropIdlePlus_cons (by simp)]
  | factorial e ih =>
    simp only [spell, settle, List.append_assoc, List.cons_append, List.nil_append]
    rw [ih, dropIdlePlus_cons (by simp)]
  | power base exponent ih₁ ih₂ =>
    simp only [spell, settle, List.append_assoc, List.cons_append]
    rw [ih₁, dropIdlePlus_cons (by simp), ih₂]
  | product left o right ih₁ ih₂ =>
    have ho : Token.symbol (.operator o.operator) ≠ .symbol (.operator .add) := by
      cases o <;> simp [Scaling.operator]
    simp only [spell, settle, List.append_assoc, List.cons_append]
    rw [ih₁, dropIdlePlus_cons ho, ih₂]
  | signed s e ih =>
    cases s with
    | minus =>
      simp only [spell, settle, List.cons_append]
      rw [dropIdlePlus_cons (by simp [Sign.binary]), ih]
    | plus =>
      simp only [spell, settle, List.cons_append]
      rw [Sign.binary, hplus (by simp), ih]
      split <;> rfl
  | sum left s right ih₁ ih₂ =>
    cases s with
    | minus =>
      simp only [spell, settle, List.append_assoc, List.cons_append]
      rw [ih₁, dropIdlePlus_cons (by simp [Sign.binary]), ih₂]
    | plus =>
      -- the plus goes, and the minus that the term begins with takes its place
      simp only [spell, settle, List.append_assoc, List.cons_append]
      rw [ih₁, Sign.binary, hplus (by simp), ih₂]
      split
      · rename_i h
        have hminus := rawTokens_of_leadsMinus (leadsMinus_settle h)
        unfold rawTokens at hminus
        rw [hminus, spell, List.append_assoc]
        rfl
      · rw [spell, List.append_assoc]
        rfl

/-- The signs of an expression are told apart as they were meant. -/
theorem classifySigns_append (e : Expr words t) (rest : List Token) :
    classifySigns false (e.rawTokens ++ rest) = e.tokens ++ classifySigns true rest := by
  unfold rawTokens tokens
  induction e generalizing rest with
  | number | name => rfl
  | closed e ih | primary e ih | operand e ih | unsigned e ih | factor e ih | term e ih =>
    exact ih rest
  | group e ih | factorial e ih | call f h e ih =>
    simp [spell, classifySigns, asUnary, Token.endsOperand, Symbol.endsOperand, ih]
  | callPair f h e₁ e₂ ih₁ ih₂ | power e₁ e₂ ih₁ ih₂ =>
    simp [spell, classifySigns, asUnary, Token.endsOperand, Symbol.endsOperand, ih₁, ih₂]
  | product left o right ih₁ ih₂ =>
    cases o <;> simp [spell, classifySigns, Scaling.operator, Token.endsOperand,
      Symbol.endsOperand, ih₁, ih₂]
  | signed s e ih =>
    cases s <;> simp [spell, classifySigns, asUnary, Sign.binary, Sign.unary, Token.endsOperand,
      Symbol.endsOperand, ih]
  | sum left s right ih₁ ih₂ =>
    cases s <;> simp [spell, classifySigns, Sign.binary, Token.endsOperand, Symbol.endsOperand,
      ih₁, ih₂]

/-- Both passes over the signs make the tokens of the settled tree. -/
theorem classifySigns_dropIdlePlus (e : Expr words t) :
    classifySigns false (dropIdlePlus e.rawTokens) = e.settle.tokens := by
  have hdrop := dropIdlePlus_append e []
  have hclass := classifySigns_append e.settle []
  simp only [List.append_nil, dropIdlePlus, classifySigns] at hdrop hclass
  rw [hdrop, hclass]

end Expr

end Reckoner
