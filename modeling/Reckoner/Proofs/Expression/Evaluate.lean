import Reckoner.Proofs.Evaluate
import Reckoner.Proofs.Expression.Order
import Reckoner.Proofs.Expression.Sign
import Reckoner.Proofs.Expression.Value

/-!
# Evaluating an expression

The value of the text of an expression is the value of its tree (`evaluate_text`), whatever blanks
stand in the text and whatever the variables are bound to.
-/

namespace Reckoner

/-- The words of an expression among these variables: numerals, bound names and the functions that
no variable hides. -/
def Variables.vocabulary (vars : Variables) : Vocabulary where
  numeral n := n.IsProper
  operand x := IsWord x ∧ (Scope.value? { vars } x).isSome
  function arity name := vars[name]? = none ∧
    ∃ f, Registry.builtin.lookup name = some f ∧ f.arity = arity

namespace Variables

variable (vars : Variables)

theorem vocabulary_fitsIn : vars.vocabulary.FitsIn { vars } where
  operand _ h := Option.isSome_iff_exists.1 h.2
  function _ name h := by
    obtain ⟨hvars, f, hf, -⟩ := h
    simp [Scope.value?, hvars, (Registry.isWord_of_lookup hf).2]

theorem vocabulary_spelled : vars.vocabulary.Spelled where
  numeral _ h := h
  operand _ h := h.1
  function _ _ h := by
    obtain ⟨-, f, hf, -⟩ := h
    exact (Registry.isWord_of_lookup hf).1

theorem vocabulary_registered : vars.vocabulary.Registered .builtin := fun _ _ h => h.2

end Variables

variable {vars : Variables}

/-- The tokens of an expression text have the value of the tree. -/
theorem evaluateTokens_settle (e : Expr vars.vocabulary .sum) :
    evaluateTokens vars e.settle.tokens =
      (e.value? { vars } .builtin).elim (.error .nonIntegerFactorial) .ok := by
  have horder := (e.settle.compiles vars.vocabulary_fitsIn).ofTokens_eq
  have hvalue := (e.settle.puts_postorder vars.vocabulary_fitsIn vars.vocabulary_registered).value
  rw [evaluateTokens, horder, ← e.value?_settle]
  exact hvalue

/-- The tokens of an expression text are those of the tree without idle pluses. -/
theorem tokenize_text (e : Expr vars.vocabulary .sum) {text : String} (h : solid text = e.text) :
    tokenize reservedCharacters text = .ok e.settle.tokens := by
  have hspelled := vars.vocabulary_spelled
  have hne : solid text ≠ [] := h ▸ e.text_ne_nil hspelled
  have hres : ∀ c ∈ solid text, c ∉ reservedCharacters := h ▸ e.reserved_of_mem_text hspelled
  rw [tokenize_of_plain hne hres, h, Token.tokensFrom, e.scan_text hspelled,
    e.classifySigns_dropIdlePlus]

theorem evaluate_text (e : Expr vars.vocabulary .sum) {text : String} (h : solid text = e.text) :
    evaluate vars text = (e.value? { vars } .builtin).elim (.error .nonIntegerFactorial) .ok := by
  have hspelled := vars.vocabulary_spelled
  have hne : solid text ≠ [] := by
    rw [h]
    exact e.text_ne_nil hspelled
  have hres : ∀ c ∈ solid text, c ∉ reservedCharacters := by
    rw [h]
    exact e.reserved_of_mem_text hspelled
  rw [evaluate_of_plain vars hne hres, h, Token.tokensFrom, e.scan_text hspelled,
    e.classifySigns_dropIdlePlus, evaluateTokens_settle]

/-- The minus after an idle plus belongs to the whole product; blanks do not count. -/
theorem evaluate_text_idlePlus :
    evaluate (Std.ExtTreeMap.insert ∅ "x" 3) " 1 +\t-x * 2 !" = .ok (-5) := by
  let vars : Variables := Std.ExtTreeMap.insert ∅ "x" 3
  let hx : vars.vocabulary.operand "x" := ⟨by decide, by decide +kernel⟩
  let hdigit : ∀ c : Char, c.isDigit = true →
      vars.vocabulary.numeral ⟨⟨[c], none⟩, none⟩ := fun c hc =>
    ⟨⟨by simpa using hc, by simp, by simp⟩, by simp⟩
  let one : Expr vars.vocabulary .factorial := .primary (.closed (.number _ (hdigit '1' rfl)))
  let two : Expr vars.vocabulary .factorial := .primary (.closed (.number _ (hdigit '2' rfl)))
  let x : Expr vars.vocabulary .factorial := .primary (.closed (.name "x" hx))
  let product : Expr vars.vocabulary .term :=
    .product (.factor (.signed .minus (.unsigned (.operand x)))) .times
      (.unsigned (.operand (.factorial two)))
  let e : Expr vars.vocabulary .sum :=
    .sum (.term (.factor (.unsigned (.operand one)))) .plus product
  have htext : solid " 1 +\t-x * 2 !" = e.text := by decide
  have hvalue : e.value? { vars } .builtin = some (-5) := by decide +kernel
  rw [evaluate_text e htext, hvalue]
  rfl
end Reckoner
