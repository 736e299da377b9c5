import Reckoner.Proofs.Decimal.Whole
import Reckoner.Proofs.Session.Display

/-!
# Whole results

A whole result is shown as it is just if its product with the power of ten of the places survives
the rounding to a double (`display_whole_iff`). It does where `n * 5 ^ places` is below `2 ^ 53`
(`Double.survives_of_lt`); of the larger numbers some are shown with decimal places that they do not
have, and some as infinite.
-/

namespace Reckoner.Session

open Double (unit unit_pos Survives roundPlaces)

/-- A text shows a whole number `x` of the given sign and size: it reads back as the number, with no
sign where that is zero, and spells it in digits alone below `10 ^ 15` and with a power of ten from
there on. -/
structure ShowsWhole (x : Float) (negative : Bool) (n : Nat) (text : String) : Prop where
  reads : Double.read? text = some (if n = 0 then 0 else x)
  plain : n < 10 ^ 15 → text = (if negative && n != 0 then "-" else "") ++ toString n
  scientific : 10 ^ 15 ≤ n → ∃ m : Numeral, m.IsProper ∧ m.mantissa.whole.length = 1 ∧
    m.exponent.isSome = true ∧ text = (if negative then "-" else "") ++ m.text

section
variable {x : Float} {negative : Bool} {n places : Nat}

theorem text_of_parts (hx : Double.parts x = .finite negative (n * unit)) :
    Decimal.Layout.display.text x =
      (if negative then "-" else "") ++
        Decimal.Layout.display.render (Decimal.shortest (n * unit)) := by
  rw [Decimal.Layout.text, hx]

theorem showsWhole_text (hx : Double.parts x = .finite negative (n * unit)) :
    ShowsWhole x negative n (Decimal.Layout.display.text (if n = 0 then 0 else x)) := by
  rcases Nat.eq_zero_or_pos n with rfl | hn
  · refine ⟨?_, fun _ => ?_, fun h => absurd h (by norm_num)⟩
    · rw [if_pos rfl]
      decide +kernel
    · rw [if_pos rfl, bne_self_eq_false, Bool.and_false]
      decide +kernel
  · have hread := Double.read?_text Decimal.marks_display (Double.isNaN_of_parts hx)
    rw [if_neg hn.ne']
    refine ⟨by rw [hread, if_neg hn.ne'], fun hlt => ?_, fun hle => ?_⟩
    · rw [text_of_parts hx, Decimal.render_display_of_lt hn hlt, bne_iff_ne.2 hn.ne', Bool.and_true]
    · obtain ⟨m, hm, hone, hexp, hrender⟩ := Decimal.exists_render_display hle
      exact ⟨m, hm, hone, hexp, by rw [text_of_parts hx, hrender]⟩

/-- A whole result is shown as it is just if it survives the rounding to decimal places. -/
theorem display_whole_iff (hx : Double.parts x = .finite negative (n * unit)) (hplaces : places ≤ 22) :
    ShowsWhole x negative n (display x places) ↔ Survives n places := by
  rw [display_of_parts hx, shown]
  have hunit : n * unit = 0 ↔ n = 0 := by
    rw [Nat.mul_eq_zero, or_iff_left unit_pos.ne']
  constructor
  · intro hshows
    rcases Nat.eq_zero_or_pos n with rfl | hn
    · exact Double.survives_of_lt (by norm_num) hplaces
    · have hreads := hshows.reads
      rw [if_neg hn.ne'] at hreads
      refine (Double.roundPlaces_eq_iff hx hplaces).1 ?_
      split at hreads
      · rw [Double.read?_text Decimal.marks_display rfl, Option.some.injEq] at hreads
        rw [← hreads, Double.parts_zero, Double.Parts.finite.injEq] at hx
        exact absurd (hunit.1 hx.2.symm) hn.ne'
      · rw [Double.read?_text Decimal.marks_display (Double.isNaN_roundPlaces hx hplaces)] at hreads
        exact Option.some.inj hreads
  · intro h
    rw [(Double.roundPlaces_eq_iff hx hplaces).2 h, Double.beq_zero hx]
    simp only [decide_eq_true_eq, hunit]
    exact showsWhole_text hx

/-- Six places leave a small number alone and give a large one decimal places that it does not
have. -/
theorem display_whole_six :
    display 123456 6 = "123456" ∧ display 576463566503 6 = "576463566503.0001" ∧
      ¬ ShowsWhole 576463566503 false 576463566503 (display 576463566503 6) := by
  have hsmall : ShowsWhole 123456 false 123456 (display 123456 6) :=
    (@display_whole_iff 123456 false 123456 6 (by decide +kernel) (by norm_num)).2
      (by decide +kernel)
  have hlarge : ¬ Survives 576463566503 6 := by decide +kernel
  refine ⟨hsmall.plain (by norm_num), by decide +kernel, fun h => hlarge ?_⟩
  exact (@display_whole_iff 576463566503 false 576463566503 6 (by decide +kernel) (by norm_num)).1 h

end

end Reckoner.Session
