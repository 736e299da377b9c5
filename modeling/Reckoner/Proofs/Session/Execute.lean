import Reckoner.Proofs.Decimal.Text
import Reckoner.Proofs.Refusal
import Reckoner.Proofs.Session.Effect
import Reckoner.Proofs.Storage.State

/-!
# Texts that a line records

The texts that a line records are kept by a table (`isKept_of_entered`): an expression and a result
have no blank, and what an error names is a part of the expression.
-/

namespace Reckoner.Session

open Storage (IsKept isKept_of_hasNoBlank)
open Text (HasNoBlank)

/-! ## Texts that are shown -/

theorem hasNoBlank_display (x : Float) (precision : Int) : HasNoBlank (display x precision) := by
  have hmark : HasNoBlank Decimal.Layout.display.wholeMark := by
    simp [HasNoBlank, Decimal.Layout.display]
  unfold display
  split
  · simp [HasNoBlank, Text.isBlank]
  · split <;> simp [HasNoBlank, Text.isBlank]
  · exact Decimal.hasNoBlank_text hmark _

theorem return_not_mem_message {vars : Variables} {expression : String} {e : EvalError}
    (h : evaluate vars expression = .error e) : '\r' ∉ e.message.toList := by
  have hnamed : '\r' ∉ e.named := by
    intro hmem
    have hsolid := (named_infix_of_evaluate h).subset hmem
    exact absurd (Text.isBlank_of_mem_removeBlanks hsolid) (by decide)
  cases e with
  | invalidCharacter c =>
    have hc : c ≠ '\r' := by
      rintro rfl
      exact hnamed List.mem_cons_self
    change '\r' ∉ ("Invalid character '" ++ String.ofList [c] ++ "'").toList
    rw [String.toList_append, String.toList_append, String.toList_ofList]
    simp [hc.symm]
  | unknownName name =>
    have hname : '\r' ∉ name.toList := hnamed
    change '\r' ∉ ("Unknown variable or function (" ++ name ++ ")").toList
    rw [String.toList_append, String.toList_append]
    simp [hname]
  | emptyInput | mismatchedParenthesis | invalidExpression | nonIntegerFactorial =>
    decide +kernel

/-! ## Entries and lines -/

theorem hasNoBlank_of_assigns {text : List Char} {name expression : String}
    (htext : ∀ c ∈ text, Text.isBlank c = false) (h : Assigns text name expression) :
    HasNoBlank name := by
  cases h with
  | named _ _ _ => exact Text.hasNoBlank_ofList fun c hc => htext c (List.mem_append_left _ hc)
  | unnamed _ => simp [HasNoBlank, defaultName, Text.isBlank]

/-- What is shown for an entry without blanks is kept. At most one more name has a value then, and
that name is kept. -/
theorem isKept_of_entered {s : Session} {text : List Char} {shown : String} {vars : Variables}
    (htext : ∀ c ∈ text, Text.isBlank c = false) (h : Entered s text shown vars) :
    IsKept shown ∧ ∀ name ∈ vars, name ∈ s.vars ∨ IsKept name := by
  have hkept : ∀ {message : String}, '\r' ∉ message.toList → IsKept message :=
    fun hreturn hmem => absurd hmem hreturn
  constructor
  · cases h with
    | severalEquals _ | emptyName _ _ | invalidName _ _ => exact hkept (by decide +kernel)
    | failed _ _ hvalue => exact hkept (return_not_mem_message hvalue)
    | @assigned _ _ value => exact isKept_of_hasNoBlank (hasNoBlank_display value s.precision)
  · intro name hname
    refine (h.mem_vars hname).imp_right ?_
    rintro ⟨-, expression, hassigns⟩
    exact isKept_of_hasNoBlank (hasNoBlank_of_assigns htext hassigns)

theorem hasNoBlank_solid (line : String) : HasNoBlank (String.ofList (solid line)) :=
  Text.hasNoBlank_ofList fun _ hc => Text.isBlank_of_mem_removeBlanks hc

end Reckoner.Session
