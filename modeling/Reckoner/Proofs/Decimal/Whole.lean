import Reckoner.Proofs.Decimal.Grid
import Reckoner.Proofs.Decimal.Text

/-!
# Whole numbers as shown

Below `10 ^ 15` a whole number is shown by its own digits (`render_display_of_lt`), and from there
on by a numeral with one digit before the point and a power of ten (`exists_render_display`).
-/

namespace Reckoner.Decimal

open Double (unit unit_pos)

variable {n : Nat}

theorem toDigits_mul_ten_pow (hn : 0 < n) (e : Nat) :
    Nat.toDigits 10 (n * 10 ^ e) = Nat.toDigits 10 n ++ List.replicate e '0' := by
  induction e with
  | zero => simp
  | succ e ih =>
    have hpos : 0 < n * 10 ^ e := by positivity
    have hten : n * 10 ^ (e + 1) = 10 * (n * 10 ^ e) := by rw [Nat.pow_succ]; ring
    rw [hten, Nat.toDigits_of_base_le (by norm_num) (by omega), Nat.mul_div_cancel_left _ (by norm_num),
      Nat.mul_mod_right, ih, List.replicate_succ', List.append_assoc]
    rfl

theorem value_lt_ten_zpow (d : Decimal) :
    d.value < 10 ^ (d.exponent + (Nat.toDigits 10 d.digits).length) := by
  have hdigits := (Nat.length_toDigits_le_iff (by norm_num : 1 < 10)
    (Nat.length_toDigits_pos (b := 10) (n := d.digits))).1 le_rfl
  rw [value, add_comm, zpow_add₀ (by norm_num), zpow_natCast]
  gcongr
  exact_mod_cast hdigits

/-- The exponent of the leading digit of the shortest decimal of a whole number. -/
theorem leading_lt_iff (hn : 0 < n) :
    (shortest (n * unit)).exponent + (Nat.toDigits 10 (shortest (n * unit)).digits).length - 1 < 15 ↔
      n < 10 ^ 15 := by
  have hq : 0 < n * unit := Nat.mul_pos hn unit_pos
  have hdigits := digits_pos hq
  rcases Nat.lt_or_ge n (2 ^ 53) with hlt | hge
  · obtain ⟨hexp, hvalue⟩ := shortest_whole hlt
    have hlen := congrArg List.length
      (toDigits_mul_ten_pow hdigits (shortest (n * unit)).exponent.toNat)
    rw [hvalue, List.length_append, List.length_replicate] at hlen
    rw [← Nat.length_toDigits_le_iff (by norm_num : 1 < 10) (by norm_num)]
    omega
  · -- too large to be shown by its own digits, but at least half of it is
    refine iff_of_false (fun hlt => ?_) (by omega)
    have hunit : (0 : ℚ) < unit := by exact_mod_cast unit_pos
    have hhalf : (n : ℚ) ≤ 2 * (shortest (n * unit)).value := by
      have h := half_le_value hq
      push_cast at h
      rw [mul_comm (n : ℚ), mul_comm 2 (unit : ℚ), mul_assoc] at h
      exact le_of_mul_le_mul_left h hunit
    have hvalue : (shortest (n * unit)).value < 10 ^ (15 : Int) :=
      (value_lt_ten_zpow _).trans_le (zpow_le_zpow_right₀ (by norm_num) (by omega))
    have hlarge : ((2 ^ 53 : ℕ) : ℚ) ≤ n := by exact_mod_cast hge
    norm_num only at hvalue hlarge hhalf
    linarith

theorem render_display_of_lt (hn : 0 < n) (hlt : n < 10 ^ 15) :
    Layout.display.render (shortest (n * unit)) = toString n := by
  obtain ⟨hexp, hvalue⟩ := shortest_whole (hlt.trans (by norm_num))
  have hleading := (leading_lt_iff hn).2 hlt
  have hdigits := toDigits_mul_ten_pow (digits_pos (Nat.mul_pos hn unit_pos))
    (shortest (n * unit)).exponent.toNat
  have hlen := Nat.length_toDigits_pos (b := 10) (n := (shortest (n * unit)).digits)
  rw [hvalue] at hdigits
  generalize hd : shortest (n * unit) = d at *
  have hzeros : (d.exponent + (Nat.toDigits 10 d.digits).length - 1).toNat + 1 -
      (Nat.toDigits 10 d.digits).length = d.exponent.toNat := by omega
  simp only [Layout.render, Layout.display, Option.all_none, Bool.true_and, hleading, decide_true,
    if_true, plainText]
  rw [if_neg (by omega), if_pos (by omega), hzeros, ← hdigits, String.append_empty,
    Nat.toString_eq_ofList_toDigits]

/-- One digit before the point, and a power of ten. -/
theorem exists_render_display (hle : 10 ^ 15 ≤ n) :
    ∃ m : Numeral, m.IsProper ∧ m.mantissa.whole.length = 1 ∧ m.exponent.isSome = true ∧
      Layout.display.render (shortest (n * unit)) = m.text := by
  have hleading := mt (leading_lt_iff (by omega)).1 (Nat.not_lt.2 hle)
  obtain ⟨m, hm, hone, hexp, -⟩ := exists_spells_scientific (shortest (n * unit)) rfl
  refine ⟨m, hm.proper, hone, hexp, ?_⟩
  rw [Numeral.text, hm.chars, String.ofList_toList]
  simp only [Layout.render, Layout.display, hleading, decide_false, Bool.and_false,
    Bool.false_eq_true, if_false]

end Reckoner.Decimal
