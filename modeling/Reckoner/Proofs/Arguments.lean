import Reckoner.Proofs.Evaluate
import Reckoner.Proofs.Postfix.Comma
import Reckoner.Proofs.Postfix.Stack

/-!
# Two arguments

A comma is dropped, so what the first argument leaves pending may take an operand of the second
(`evaluate_mod_sum`). A function of two arguments is applied to their values where nothing outside
parentheses in the first argument waits any longer than the start of the second
(`evaluate_pair`): there is nothing of the kind, or the second argument begins with a sign and there
are only factorials and calls. In any other case the arguments do not keep to themselves in postfix
order (`Postfix.ofTokens_comma_iff`).
-/

namespace Reckoner

open Postfix

variable {vars : Variables} {f : String}

theorem tokensFrom_pair (hf : IsWord f) (xs ys : List Char) :
    Token.tokensFrom false (f.toList ++ '(' :: (xs ++ ',' :: (ys ++ [')']))) =
      .identifier f :: (.symbol .opening :: (Token.tokensFrom false xs ++
        .symbol .comma :: Token.tokensFrom false ys) ++ [.symbol .closing]) := by
  have hname : Token.tokensFrom false f.toList = [.identifier f] := by
    have hnil : ∀ c ∈ ([] : List Char).head?, isSymbol c = true := by simp
    have hscan := Token.scan_word_append hf hnil
    rw [List.append_nil] at hscan
    rw [Token.tokensFrom, hscan]
    rfl
  rw [Token.tokensFrom_symbol rfl rfl, Token.tokensFrom_symbol rfl rfl,
    Token.tokensFrom_symbol rfl rfl, hname]
  simp [Symbol.endsOperand, Token.tokensFrom, Token.scan, Token.scanFrom, Token.flush,
    Token.dropIdlePlus, Token.classifySigns]

/-- The statement of `evaluate_pair` for tokens. -/
theorem evaluateTokens_pair {F : MathFunction} {first second : List Token} {x y : Float}
    (hscope : Scope.value? { vars } f = none) (hf : Registry.builtin.lookup f = some F)
    (harity : F.arity = 2) (hx : evaluateTokens vars first = .ok x)
    (hy : evaluateTokens vars second = .ok y) (h : Delimited { vars } first second) :
    evaluateTokens vars (.identifier f :: (.symbol .opening :: (first ++
      .symbol .comma :: second) ++ [.symbol .closing])) = .ok (F.apply [x, y]) := by
  obtain ⟨xs, hxs, hx⟩ := evaluateTokens_eq_ok_iff.1 hx
  obtain ⟨ys, hys, hy⟩ := evaluateTokens_eq_ok_iff.1 hy
  have hblock := Block.group (ofTokens_delimited h hxs hys)
  have hstep : step { vars } [] (.identifier f) = .ok ([], [.function f]) := by
    simp only [step, hscope]
  refine evaluateTokens_eq_ok_iff.2 ⟨xs ++ ys ++ [.function f], ?_, ?_⟩
  · refine ofTokens_eq_ok_iff.2 ⟨xs ++ ys, [.function f], ?_, by simp [Item.isParen], rfl⟩
    rw [run_cons_of_step hstep, hblock]
    rfl
  · have hcall := reduce_function hf [x, y] harity.symm []
    rw [value_eq_ok_iff, List.foldlM_append, List.foldlM_append, foldlM_reduce_of_value hx]
    simp only [bind, Except.bind]
    rw [foldlM_reduce_of_value hy]
    simp only [List.foldlM_cons, List.foldlM_nil, bind, Except.bind]
    exact (congrArg (Except.bind · _) hcall).trans rfl

theorem evaluate_pair {F : MathFunction} {a b : String} {x y : Float} (hvars : vars[f]? = none)
    (hf : Registry.builtin.lookup f = some F) (harity : F.arity = 2)
    (hx : evaluate vars a = .ok x) (hy : evaluate vars b = .ok y)
    (h : Delimited { vars } (Token.tokensFrom false (solid a)) (Token.tokensFrom false (solid b))) :
    evaluate vars (f ++ "(" ++ a ++ "," ++ b ++ ")") = .ok (F.apply [x, y]) := by
  obtain ⟨-, hresx, hx⟩ := evaluate_eq_ok_iff.1 hx
  obtain ⟨-, hresy, hy⟩ := evaluate_eq_ok_iff.1 hy
  obtain ⟨hword, hconst⟩ := Registry.isWord_of_lookup hf
  have hsolid : solid (f ++ "(" ++ a ++ "," ++ b ++ ")") =
      f.toList ++ '(' :: (solid a ++ ',' :: (solid b ++ [')'])) := by
    simp only [solid_append, solid_eq_toList hword.noBlank, show solid "(" = ['('] by decide,
      show solid "," = [','] by decide, show solid ")" = [')'] by decide, List.append_assoc,
      List.cons_append, List.nil_append]
  have hscope : Scope.value? { vars } f = none := by simp [Scope.value?, hvars, hconst]
  refine evaluate_eq_ok_iff.2 ⟨by simp [hsolid], fun c hc => ?_, ?_⟩
  · rw [hsolid] at hc
    simp only [List.mem_append, List.mem_cons, List.not_mem_nil, or_false] at hc
    rcases hc with hc | rfl | hc | rfl | hc | rfl
    · exact hword.noReserved c hc
    · decide
    · exact hresx c hc
    · decide
    · exact hresy c hc
    · decide
  · rw [hsolid, tokensFrom_pair hword]
    exact evaluateTokens_pair hscope hf harity hx hy h

/-- A factorial in the first argument is over where the second begins with a sign. -/
theorem evaluate_pair_fact : evaluate ∅ "(1 + 2)!" = .ok 6 ∧ evaluate ∅ "-1 + 5" = .ok 4 ∧
    evaluate ∅ ("mod" ++ "(" ++ "(1 + 2)!" ++ "," ++ "-1 + 5" ++ ")") = .ok (-2) := by
  have hx : evaluate ∅ "(1 + 2)!" = .ok 6 := by decide +kernel
  have hy : evaluate ∅ "-1 + 5" = .ok 4 := by decide +kernel
  have hmod : (MathFunction.binary Double.remainder).apply [6, 4] = -2 := by decide +kernel
  refine ⟨hx, hy, ?_⟩
  rw [← hmod]
  exact evaluate_pair (by decide) rfl rfl hx hy (by decide)

/-- A sum in the first argument takes the second one in: `2+3,4` is `2` and `3+4`. -/
theorem evaluate_mod_sum : ¬ ∀ (vars : Variables) (f a b : String) (F : MathFunction)
    (x y : Float), vars[f]? = none → Registry.builtin.lookup f = some F → F.arity = 2 →
      evaluate vars a = .ok x → evaluate vars b = .ok y →
        evaluate vars (f ++ "(" ++ a ++ "," ++ b ++ ")") = .ok (F.apply [x, y]) := by
  intro h
  have hx : evaluate ∅ "2+3" = .ok 5 := by decide +kernel
  have hy : evaluate ∅ "4" = .ok 4 := by decide +kernel
  have hcall : evaluate ∅ ("mod" ++ "(" ++ "2+3" ++ "," ++ "4" ++ ")") = .ok 2 := by decide +kernel
  have hmod : (MathFunction.binary Double.remainder).apply [5, 4] = 1 := by decide +kernel
  have hclaim := h ∅ "mod" "2+3" "4" (.binary Double.remainder) 5 4 (by decide) rfl rfl hx hy
  rw [hcall, hmod] at hclaim
  exact absurd (Except.ok.inj hclaim) (by decide +kernel)

end Reckoner
