import Reckoner.Evaluate
import Reckoner.Proofs.Postfix.Stack
import Reckoner.Proofs.Token.Tokenize

/-!
# Evaluation in stages

`evaluate_of_solid` takes an evaluation apart: the text must not be empty, the first reserved
character is reported, and only then do tokens count.
-/

namespace Reckoner

/-- The names of functions are words, and no constant hides one. -/
theorem Registry.isWord_of_lookup {name : String} {f : MathFunction}
    (h : Registry.builtin.lookup name = some f) :
    IsWord name ∧ Constants.builtin.lookup name = none := by
  have hall : ∀ entry ∈ Registry.builtin,
      IsWord entry.1 ∧ Constants.builtin.lookup entry.1 = none := by decide +kernel
  exact hall _ (mem_of_lookup h)

/-- The characters of a text that count. -/
def solid (text : String) : List Char := Text.removeBlanks text.toList

@[simp] theorem solid_append (s t : String) : solid (s ++ t) = solid s ++ solid t := by
  simp [solid]

/-- A text without blanks counts as it is. -/
theorem solid_eq_toList {text : String} (h : ∀ c ∈ text.toList, Text.isBlank c = false) :
    solid text = text.toList :=
  Text.removeBlanks_eq_self h

/-- The value of tokens. -/
def evaluateTokens (vars : Variables) (tokens : List Token) : Except EvalError Float :=
  (Postfix.ofTokens { vars } tokens).bind (Postfix.value .builtin)

theorem evaluateTokens_eq_ok_iff {vars : Variables} {tokens : List Token} {v : Float} :
    evaluateTokens vars tokens = .ok v ↔ ∃ items,
      Postfix.ofTokens { vars } tokens = .ok items ∧ Postfix.value .builtin items = .ok v := by
  unfold evaluateTokens
  cases Postfix.ofTokens { vars } tokens <;> simp [Except.bind]

theorem find?_reserved {cs : List Char} (h : ∀ c ∈ cs, c ∉ reservedCharacters) :
    cs.find? reservedCharacters.contains = none :=
  List.find?_eq_none.2 fun c hc => by simpa using h c hc

theorem tokenize_of_plain {text : String} (h : solid text ≠ [])
    (hres : ∀ c ∈ solid text, c ∉ reservedCharacters) :
    tokenize reservedCharacters text = .ok (Token.tokensFrom false (solid text)) := by
  have hnone := find?_reserved hres
  simp only [solid] at h hnone ⊢
  simp only [tokenize, List.isEmpty_iff, h, if_false, hnone, Token.tokensFrom]

theorem toPostfix_of_solid (vars : Variables) {text : String} (h : solid text ≠ []) :
    toPostfix vars text = match (solid text).find? reservedCharacters.contains with
      | some c => .error (.invalidCharacter c)
      | none => Postfix.ofTokens { vars } (Token.tokensFrom false (solid text)) := by
  simp only [solid] at h ⊢
  simp only [toPostfix, tokenize, List.isEmpty_iff, h, if_false, Token.tokensFrom]
  cases (Text.removeBlanks text.toList).find? reservedCharacters.contains <;> rfl

theorem evaluate_of_solid (vars : Variables) {text : String} (h : solid text ≠ []) :
    evaluate vars text = match (solid text).find? reservedCharacters.contains with
      | some c => .error (.invalidCharacter c)
      | none => evaluateTokens vars (Token.tokensFrom false (solid text)) := by
  have hevaluate : evaluate vars text = (toPostfix vars text).bind (Postfix.value .builtin) := rfl
  rw [hevaluate, toPostfix_of_solid vars h]
  cases (solid text).find? reservedCharacters.contains <;> rfl

theorem evaluate_of_plain (vars : Variables) {text : String} (h : solid text ≠ [])
    (hres : ∀ c ∈ solid text, c ∉ reservedCharacters) :
    evaluate vars text = evaluateTokens vars (Token.tokensFrom false (solid text)) := by
  rw [evaluate_of_solid vars h, find?_reserved hres]

theorem evaluate_eq_ok_iff {vars : Variables} {text : String} {v : Float} :
    evaluate vars text = .ok v ↔ solid text ≠ [] ∧ (∀ c ∈ solid text, c ∉ reservedCharacters) ∧
      evaluateTokens vars (Token.tokensFrom false (solid text)) = .ok v := by
  by_cases h : solid text = []
  · simp only [solid] at h
    simp [evaluate, toPostfix, tokenize, h, solid, bind, Except.bind]
  · rw [evaluate_of_solid vars h]
    cases hf : (solid text).find? reservedCharacters.contains with
    | none =>
      have hres : ∀ c ∈ solid text, c ∉ reservedCharacters := by
        simpa using List.find?_eq_none.1 hf
      exact ⟨fun hv => ⟨h, hres, hv⟩, fun hv => hv.2.2⟩
    | some c =>
      have hc := List.find?_some hf
      have hm := List.mem_of_find?_eq_some hf
      simp only [reduceCtorEq, false_iff, not_and]
      exact fun _ hres => absurd (by simpa using hc) (hres c hm)

end Reckoner
