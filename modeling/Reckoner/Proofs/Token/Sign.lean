import Mathlib.Data.List.Chain
import Reckoner.Token.Tokenize

/-!
# Signs in parts of a token list

Both passes over the signs look at neighbours only. Idle pluses are dropped part by part unless a
plus and a minus meet at the cut (`dropIdlePlus_append_cons`), and of what stands before a part
the classification needs to know only whether an operand has just ended (`classifySigns_append`).
-/

namespace Reckoner.Token

/-! ## Idle pluses -/

theorem dropIdlePlus_cons {t : Token} (h : t ≠ .symbol (.operator .add)) (rest : List Token) :
    dropIdlePlus (t :: rest) = t :: dropIdlePlus rest := by
  rw [dropIdlePlus]
  rintro rest' rfl
  exact absurd rfl h

theorem dropIdlePlus_cons_cons {t : Token} (h : t ≠ .symbol (.operator .sub)) (s : Token)
    (rest : List Token) : dropIdlePlus (s :: t :: rest) = s :: dropIdlePlus (t :: rest) := by
  rw [dropIdlePlus]
  rintro rest' rfl hrest
  cases hrest
  exact absurd rfl h

theorem dropIdlePlus_append_cons {t : Token} (h : t ≠ .symbol (.operator .sub))
    (xs rest : List Token) :
    dropIdlePlus (xs ++ t :: rest) = dropIdlePlus xs ++ dropIdlePlus (t :: rest) := by
  fun_induction dropIdlePlus xs with
  | case1 ys ih => rw [List.cons_append, List.cons_append, dropIdlePlus]; exact ih
  | case2 s ys hs ih =>
    rw [List.cons_append, List.cons_append, ← ih]
    cases ys with
    | nil => exact dropIdlePlus_cons_cons h s rest
    | cons y ys =>
      rw [List.cons_append, dropIdlePlus]
      rintro rest' rfl hrest
      cases hrest
      exact hs _ rfl rfl
  | case3 => rfl

theorem dropIdlePlus_ne_nil {ts : List Token} (h : ts ≠ []) : dropIdlePlus ts ≠ [] := by
  fun_induction dropIdlePlus ts with
  | case1 rest ih => exact ih (List.cons_ne_nil _ _)
  | case2 => exact List.cons_ne_nil _ _
  | case3 => exact h

/-- A dropped plus leaves its minus behind. -/
theorem eq_singleton_of_dropIdlePlus {t : Token} {ts : List Token}
    (ht : t ≠ .symbol (.operator .sub)) (h : dropIdlePlus ts = [t]) : ts = [t] := by
  match ts, h with
  | [u], h =>
    rw [dropIdlePlus] at h
    · exact h
    · rintro rest - hrest
      cases hrest
  | u :: v :: rest, h =>
    by_cases hv : v = .symbol (.operator .sub)
    · subst hv
      by_cases hu : u = .symbol (.operator .add)
      · subst hu
        rw [dropIdlePlus, dropIdlePlus_cons (by simp)] at h
        exact absurd (List.cons.inj h).1.symm ht
      · rw [dropIdlePlus_cons hu] at h
        exact absurd (List.cons.inj h).2 (dropIdlePlus_ne_nil (List.cons_ne_nil _ _))
    · rw [dropIdlePlus_cons_cons hv] at h
      exact absurd (List.cons.inj h).2 (dropIdlePlus_ne_nil (List.cons_ne_nil _ _))

theorem mem_of_mem_dropIdlePlus {t : Token} {ts : List Token} (h : t ∈ dropIdlePlus ts) :
    t ∈ ts := by
  fun_induction dropIdlePlus ts with
  | case1 rest ih => exact List.mem_cons_of_mem _ (ih h)
  | case2 s rest _ ih =>
    rcases List.mem_cons.1 h with rfl | h
    · exact List.mem_cons_self
    · exact List.mem_cons_of_mem _ (ih h)
  | case3 => exact h

/-! ## Unary and binary -/

/-- Whether an operand has just ended after the tokens, given whether one had before them. -/
def afterOperand (before : Bool) (ts : List Token) : Bool :=
  ts.getLast?.elim before endsOperand

theorem classifySigns_append (before : Bool) (xs ys : List Token) :
    classifySigns before (xs ++ ys) =
      classifySigns before xs ++ classifySigns (afterOperand before xs) ys := by
  induction xs generalizing before with
  | nil => rfl
  | cons t xs ih =>
    rw [List.cons_append, classifySigns, classifySigns, ih]
    cases xs <;> rfl

/-- Only a sign depends on what stands before it. -/
theorem classifySigns_cons {t : Token} (h : t.asUnary = t) (before : Bool) (rest : List Token) :
    classifySigns before (t :: rest) = t :: classifySigns t.endsOperand rest := by
  rw [classifySigns, h, ite_self]

theorem eq_of_asUnary {t u : Token} (h : u.asUnary = t) (ht : ∀ s, t ≠ .symbol s) : u = t := by
  unfold asUnary at h
  split at h
  · exact absurd h.symm (ht _)
  · exact absurd h.symm (ht _)
  · exact h

/-- The classification touches symbols only. -/
theorem mem_of_mem_classifySigns {t : Token} {before : Bool} {ts : List Token}
    (ht : ∀ s, t ≠ .symbol s) (h : t ∈ classifySigns before ts) : t ∈ ts := by
  induction ts generalizing before with
  | nil => exact h
  | cons u rest ih =>
    rw [classifySigns] at h
    rcases List.mem_cons.1 h with h | h
    · refine List.mem_cons.2 (.inl ?_)
      split at h
      · exact h
      · exact (eq_of_asUnary h.symm ht).symm
    · exact List.mem_cons_of_mem _ (ih h)

theorem eq_singleton_of_classifySigns {t : Token} {before : Bool} {ts : List Token}
    (ht : ∀ s, t ≠ .symbol s) (h : classifySigns before ts = [t]) : ts = [t] := by
  match ts, h with
  | [u], h =>
    have hmem : t ∈ classifySigns before [u] := h ▸ List.mem_singleton_self t
    rw [List.mem_singleton.1 (mem_of_mem_classifySigns ht hmem)]

def isUnarySign : Token → Bool
  | symbol (.operator .pos) | symbol (.operator .neg) => true
  | _ => false

/-- No unary sign follows the end of an operand. -/
def SignApart (t u : Token) : Prop := t.endsOperand = true → u.isUnarySign = false

theorem endsOperand_asUnary (t : Token) : t.asUnary.endsOperand = t.endsOperand := by
  unfold asUnary
  split <;> rfl

/-- Signs are read as unary where no operand has just ended, and nowhere else. -/
theorem isChain_classifySigns {ts : List Token} (h : ∀ t ∈ ts, t.isUnarySign = false) (t : Token) :
    (t :: classifySigns t.endsOperand ts).IsChain SignApart := by
  induction ts generalizing t with
  | nil => exact .singleton t
  | cons u rest ih =>
    obtain ⟨hu, hrest⟩ := List.forall_mem_cons.1 h
    rw [classifySigns, List.isChain_cons_cons]
    cases hends : t.endsOperand with
    | true => exact ⟨fun _ => hu, ih hrest u⟩
    | false =>
      have hchain := ih hrest u.asUnary
      rw [endsOperand_asUnary] at hchain
      refine ⟨fun htrue => ?_, hchain⟩
      rw [hends] at htrue
      cases htrue

end Reckoner.Token
