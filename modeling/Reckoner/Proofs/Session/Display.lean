import Reckoner.Proofs.Decimal.Grid
import Reckoner.Proofs.Double.Places
import Reckoner.Proofs.Expression.Evaluate
import Reckoner.Proofs.Session.Execute

/-!
# Results typed back

What is shown of a finite result is a numeral, perhaps after a minus, and so an expression again: it
has the tokens that it looks like, and its value is the rounded result, whatever the variables are
(`evaluate_display`).
-/

namespace Reckoner.Session

open Double (roundPlaces)

variable {vars : Variables}

/-! ## Signed numerals as expressions -/

/-- A numeral, after a minus or not, as an expression. -/
def signedNumeral (vars : Variables) (negative : Bool) (n : Numeral) (h : n.IsProper) :
    Expr vars.vocabulary .sum :=
  let operand : Expr vars.vocabulary .signed :=
    .unsigned (.operand (.primary (.closed (.number n h))))
  .term (.factor (if negative then .signed .minus operand else operand))

/-- The tokens of a numeral, after a minus or not. -/
def signedTokens (negative : Bool) (n : Numeral) : List Token :=
  if negative then [.symbol (.operator .neg), .number n] else [.number n]

theorem text_signedNumeral {negative : Bool} {n : Numeral} (h : n.IsProper) :
    (signedNumeral vars negative n h).text = ((if negative then "-" else "") ++ n.text).toList := by
  cases negative <;>
    simp [signedNumeral, Expr.text, Expr.rawTokens, Expr.spell, Token.text, Sign.binary, Symbol.text,
      Operator.text]

theorem tokens_settle_signedNumeral {negative : Bool} {n : Numeral} (h : n.IsProper) :
    (signedNumeral vars negative n h).settle.tokens = signedTokens negative n := by
  cases negative <;> rfl

theorem value?_signedNumeral {negative : Bool} {n : Numeral} (h : n.IsProper) {scope : Scope}
    {registry : Registry} :
    (signedNumeral vars negative n h).value? scope registry =
      some (n.toDecimal.toDouble negative) := by
  cases negative
  · rfl
  · exact congrArg some n.toDecimal.neg_toDouble

/-! ## Shown results -/

/-- The double that is shown: the rounded result, and no sign where that is zero. -/
def shown (x : Float) (precision : Int) : Float :=
  if roundPlaces x precision == 0 then 0 else roundPlaces x precision

section
variable {x : Float} {precision : Int}

theorem display_of_parts {negative : Bool} {quanta : Nat}
    (hx : Double.parts x = .finite negative quanta) (precision : Int) :
    display x precision = Decimal.Layout.display.text (shown x precision) := by
  rw [display, hx, shown]

theorem exists_parts_shown (h : (roundPlaces x precision).isFinite = true) : ∃ negative quanta,
    Double.parts (shown x precision) = .finite negative quanta ∧
      (quanta = 0 → shown x precision = 0) := by
  obtain ⟨negative, quanta, hparts⟩ := Double.isFinite_iff.1 h
  rw [shown, Double.beq_zero hparts]
  rcases Nat.eq_zero_or_pos quanta with rfl | hpos
  · exact ⟨false, 0, Double.parts_zero, fun _ => rfl⟩
  · rw [decide_eq_false hpos.ne']
    exact ⟨negative, quanta, hparts, fun h0 => absurd h0 hpos.ne'⟩

end

theorem getLast?_toDigits (n : Nat) :
    (Nat.toDigits 10 n).getLast? = some (n % 10).digitChar := by
  rw [Nat.toDigits_eq_if (by norm_num)]
  split
  · rename_i hlt
    rw [Nat.mod_eq_of_lt hlt]
    rfl
  · simp

/-- A finite double is written as a numeral, after a minus or not, which has its value and no zero at
the end of its fraction. -/
theorem exists_numeral_display {y : Float} {negative : Bool} {quanta : Nat}
    (hy : Double.parts y = .finite negative quanta) (hzero : quanta = 0 → y = 0) :
    ∃ (minus : Bool) (n : Numeral), n.IsProper ∧
      Decimal.Layout.display.text y = (if minus then "-" else "") ++ n.text ∧
      n.toDecimal.toDouble minus = y ∧
      ∀ f ∈ n.mantissa.fraction, ∃ c, f.getLast? = some c ∧ c ≠ '0' := by
  rcases Nat.eq_zero_or_pos quanta with rfl | hpos
  · obtain rfl := hzero rfl
    exact ⟨false, ⟨⟨['0'], none⟩, none⟩, ⟨⟨by simp, by simp, by simp⟩, by simp⟩,
      by decide +kernel, by decide +kernel, by simp⟩
  · obtain ⟨n, hn, htext, hvalue, hlast⟩ := Double.exists_text_eq Decimal.marks_display hy
    refine ⟨negative, n, hn, htext, hvalue, fun f hf =>
      ⟨((Decimal.shortest quanta).digits % 10).digitChar, ?_, ?_⟩⟩
    · rcases hlast f hf with hnone | hlast
      · cases hnone
      · rw [hlast, getLast?_toDigits]
    · have hne : (Decimal.shortest quanta).digits % 10 ≠ 0 := fun h0 =>
        Decimal.not_ten_dvd_digits hpos (Nat.dvd_of_mod_eq_zero h0)
      have hdigit : ∀ k < 10, k ≠ 0 → Nat.digitChar k ≠ '0' := by decide
      exact hdigit _ (Nat.mod_lt _ (by norm_num)) hne

/-- A finite result is shown as a numeral, after a minus or not. Its fraction is neither empty nor
ends in zero, there is no zero with a minus, and in every variable table the text has the rounded
result as its value. -/
theorem evaluate_display {x : Float} {precision : Int}
    (h : (roundPlaces x precision).isFinite = true) :
    (∃ (minus : Bool) (n : Numeral), n.IsProper ∧
      display x precision = (if minus then "-" else "") ++ n.text ∧
      tokenize reservedCharacters (display x precision) = .ok (signedTokens minus n) ∧
      ∀ f ∈ n.mantissa.fraction, ∃ c, f.getLast? = some c ∧ c ≠ '0') ∧
    display x precision ≠ "-0" ∧
    ∀ vars, evaluate vars (display x precision) = .ok (shown x precision) := by
  obtain ⟨negative, quanta, hparts, hzero⟩ := exists_parts_shown h
  obtain ⟨minus, n, hn, htext, hvalue, hlast⟩ := exists_numeral_display hparts hzero
  obtain ⟨_, _, hx⟩ := Double.isFinite_iff.1 (Double.isFinite_of_roundPlaces h)
  rw [← display_of_parts hx] at htext
  have hsolid : ∀ vars, solid (display x precision) = (signedNumeral vars minus n hn).text :=
    fun vars => by
      rw [solid_eq_toList (hasNoBlank_display x precision), htext, text_signedNumeral]
  refine ⟨⟨minus, n, hn, htext, ?_, hlast⟩, fun hminus => ?_, fun vars => ?_⟩
  · rw [tokenize_text _ (hsolid ∅), tokens_settle_signedNumeral]
  · have hread := Double.read?_text Decimal.marks_display (Double.isNaN_of_parts hparts)
    have hnegzero : Double.read? "-0" = some (Double.ofBits true 0) := by decide +kernel
    rw [← display_of_parts hx, hminus, hnegzero, Option.some.injEq] at hread
    have hnegparts : Double.parts (Double.ofBits true 0) = .finite true 0 := by decide +kernel
    rw [← hread, hnegparts, Double.Parts.finite.injEq] at hparts
    rw [← hread] at hzero
    exact absurd (hzero hparts.2.symm) (by decide +kernel)
  · rw [evaluate_text _ (hsolid vars), value?_signedNumeral, hvalue]
    rfl

/-- A rounded result with a fraction, and one with a power of ten, typed back. -/
theorem evaluate_display_negative :
    ((roundPlaces (-1.25) 1).isFinite = true ∧ display (-1.25) 1 = "-1.2" ∧
      ∀ vars, evaluate vars "-1.2" = .ok (-1.2)) ∧
    (roundPlaces (-1.25e20) 6).isFinite = true ∧ display (-1.25e20) 6 = "-1.25e+20" ∧
      ∀ vars, evaluate vars "-1.25e+20" = .ok (-1.25e20) := by
  have h : (roundPlaces (-1.25) 1).isFinite = true := by decide +kernel
  have h' : (roundPlaces (-1.25e20) 6).isFinite = true := by decide +kernel
  have htext : display (-1.25) 1 = "-1.2" := by decide +kernel
  have htext' : display (-1.25e20) 6 = "-1.25e+20" := by decide +kernel
  have hvalue : shown (-1.25) 1 = -1.2 := by decide +kernel
  have hvalue' : shown (-1.25e20) 6 = -1.25e20 := by decide +kernel
  obtain ⟨-, -, heval⟩ := evaluate_display h
  obtain ⟨-, -, heval'⟩ := evaluate_display h'
  rw [htext, hvalue] at heval
  rw [htext', hvalue'] at heval'
  exact ⟨⟨h, htext, heval⟩, h', htext', heval'⟩

end Reckoner.Session
