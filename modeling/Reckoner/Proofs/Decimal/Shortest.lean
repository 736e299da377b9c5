import Reckoner.Decimal.Shortest
import Reckoner.Proofs.Double.Arithmetic

/-!
# Shortest decimals read back

The number that a decimal stands for is `Decimal.value`. The shortest decimal of a double lies in
the interval of the numbers that round to it (`holds_shortest`), and the double nearest to any
number in that interval is the double itself (`toDouble_of_holds`). So every decimal of the value
of the shortest one reads back (`toDouble_of_value`). Any other decimal is rounded to the nearest
double too, whatever its size (`toDouble_eq_nearest`).
-/

namespace Reckoner.Decimal

open Double (unit quantaOfBits infinityBits)

/-! ## Values -/

/-- The number that a decimal stands for. -/
def value (d : Decimal) : ℚ := d.digits * 10 ^ d.exponent

theorem ten_zpow_mul (e : Int) : (10 : ℚ) ^ e * (10 ^ (-e).toNat : ℕ) = (10 ^ e.toNat : ℕ) := by
  push_cast
  rw [← zpow_natCast, ← zpow_natCast, ← zpow_add₀ (by norm_num)]
  congr 1
  omega

theorem value_lt (d : Decimal) : d.value < 10 ^ (d.exponent + d.digits.log2 + 1) := by
  have hten : (0 : ℚ) < 10 ^ d.exponent := by positivity
  have hdigits : d.digits < 10 ^ (d.digits.log2 + 1) :=
    lt_of_lt_of_le Nat.lt_log2_self (Nat.pow_le_pow_left (by norm_num) _)
  calc d.value < (10 ^ (d.digits.log2 + 1) : ℕ) * 10 ^ d.exponent := by
        rw [value]
        gcongr
    _ = 10 ^ (d.exponent + d.digits.log2 + 1) := by
        rw [add_assoc, zpow_add₀ (by norm_num), mul_comm]
        push_cast
        norm_cast

theorem le_value {d : Decimal} (h : d.digits ≠ 0) : (10 : ℚ) ^ d.exponent ≤ d.value := by
  have hone : (1 : ℚ) ≤ d.digits := by exact_mod_cast Nat.one_le_iff_ne_zero.2 h
  exact le_mul_of_one_le_left (by positivity) hone

/-! ## Intervals -/

/-- Whether a number lies in the interval, whose ends are in quarters of a quantum. -/
def Interval.Holds (i : Interval) (x : ℚ) : Prop :=
  i.low ≤ 4 * unit * x ∧ 4 * unit * x ≤ i.high ∧
    (i.closed = true ∨ i.low < 4 * unit * x ∧ 4 * unit * x < i.high)

theorem Interval.contains_iff_holds {i : Interval} {num den : Nat} {x : ℚ} (hden : 0 < den)
    (hx : 4 * unit * x * den = num) : i.contains num den = true ↔ i.Holds x := by
  have hq : (0 : ℚ) < den := by exact_mod_cast hden
  have hx' : 4 * unit * x = num / den := by rw [← hx]; field_simp
  rw [Double.contains_iff, Interval.Holds, hx', le_div_iff₀ hq, div_le_iff₀ hq, lt_div_iff₀ hq,
    div_lt_iff₀ hq]
  norm_cast

/-- The interval around a double lies on both sides of it, within half of its size. -/
theorem around_bounds {quanta : Nat} (h : 0 < quanta) :
    2 * quanta ≤ (Interval.around quanta).low ∧ (Interval.around quanta).low < 4 * quanta ∧
      4 * quanta < (Interval.around quanta).high ∧ (Interval.around quanta).high ≤ 6 * quanta := by
  have hP := Nat.two_pow_pos (quanta.log2 - 52)
  have hle : 2 ^ (quanta.log2 - 52) ≤ quanta :=
    (Nat.pow_le_pow_right (by norm_num) (Nat.sub_le ..)).trans (Nat.log2_self_le h.ne')
  simp only [Interval.around, Nat.shiftLeft_eq]
  split <;> omega

/-! ## The search -/

/-- The test for a point of a grid. -/
theorem contains_grid_iff {i : Interval} {n : Nat} {e : Int} :
    i.contains (n * (Nat.pow 10 e.toNat * (4 * unit))) (Nat.pow 10 (-e).toNat) = true ↔
      i.Holds (value ⟨n, e⟩) := by
  refine Interval.contains_iff_holds (Nat.pow_pos (by norm_num)) ?_
  have hten := ten_zpow_mul e
  simp only [value, Nat.pow_eq] at hten ⊢
  push_cast at hten ⊢
  rw [← hten]
  ring

theorem holds_of_onGrid? {quanta : Nat} {i : Interval} {e : Int} {d : Decimal}
    (h : onGrid? quanta i e = some d) : i.Holds d.value := by
  simp only [onGrid?] at h
  split at h
  · rename_i hfits
    cases h
    exact contains_grid_iff.1 (Bool.and_eq_true_iff.1 hfits).1
  · split at h
    · rename_i hfits
      cases h
      exact contains_grid_iff.1 hfits
    · cases h

/-- A whole number of binary fractions is a decimal. -/
theorem shiftLeft_mul_value (quanta n : Nat) :
    ((1 <<< n : ℕ) : ℚ) * value ⟨quanta * Nat.pow 5 n, -n⟩ = quanta := by
  have hten : (10 : ℚ) ^ n = 2 ^ n * 5 ^ n := by rw [← mul_pow]; norm_num
  rw [value, Nat.one_shiftLeft, zpow_neg, zpow_natCast, hten]
  push_cast [Nat.pow_eq]
  field_simp

theorem holds_of_eq {quanta : Nat} (h : 0 < quanta) {x : ℚ} (hx : unit * x = quanta) :
    (Interval.around quanta).Holds x := by
  obtain ⟨-, hlow, hhigh, -⟩ := around_bounds h
  have hx' : 4 * unit * x = (4 * quanta : ℕ) := by
    push_cast
    rw [mul_assoc, hx]
  rw [Interval.Holds, hx']
  exact ⟨by exact_mod_cast hlow.le, by exact_mod_cast hhigh.le, .inr ⟨by exact_mod_cast hlow,
    by exact_mod_cast hhigh⟩⟩

theorem holds_coarsest {quanta : Nat} (h : 0 < quanta) (steps : Nat) :
    (Interval.around quanta).Holds (coarsest quanta (.around quanta) steps).value := by
  induction steps with
  | zero =>
    refine holds_of_eq h ?_
    have hexponent : (-1074 : Int) = -(1074 : ℕ) := rfl
    rw [coarsest, unit, hexponent]
    -- the powers are not to be evaluated
    generalize 1074 = n
    exact shiftLeft_mul_value quanta n
  | succ steps ih =>
    rw [coarsest]
    split
    · rename_i d hd
      exact holds_of_onGrid? hd
    · exact ih

theorem holds_shortest {quanta : Nat} (h : 0 < quanta) :
    (Interval.around quanta).Holds (shortest quanta).value := by
  rw [shortest, if_neg h.ne']
  exact holds_coarsest h _

/-! ## Reading back -/

section
variable {m : Nat} {x : ℚ}

theorem shift_le {s sig : Nat} (hnormal : 0 < s → 2 ^ 52 ≤ sig)
    (hm : s * 2 ^ 52 + sig < infinityBits) : s ≤ 2045 := by
  have hinf : infinityBits = 2047 * 2 ^ 52 := rfl
  omega

theorem two_pow_le_shiftLeft {s n : Nat} (h : s ≤ n) : 2 ^ s ≤ 1 <<< n := by
  rw [Nat.one_shiftLeft]
  exact Nat.pow_le_pow_right (by norm_num) h

theorem around_high_lt (hm : m < infinityBits) :
    (Interval.around (quantaOfBits m)).high < 4 * unit * 10 ^ 309 := by
  obtain ⟨s, sig, rfl, hq, hsig, hnormal⟩ := Double.exists_significand m
  rw [hq, Double.around_significand hsig hnormal]
  have hend : 4 * (sig * 2 ^ s) + 2 * 2 ^ s ≤ 4 * 2 ^ 53 * 2 ^ s := by
    have := Nat.mul_le_mul_right (2 ^ s) hsig
    rw [Nat.succ_mul] at this
    omega
  have hpow : 2 ^ s ≤ 1 <<< 2045 := two_pow_le_shiftLeft (shift_le hnormal hm)
  exact lt_of_le_of_lt (hend.trans (Nat.mul_le_mul_left _ hpow)) (by decide +kernel)

theorem lt_of_holds (hm : m < infinityBits) (h : (Interval.around (quantaOfBits m)).Holds x) :
    x < 10 ^ (309 : Int) := by
  have hlt : (4 * unit * x : ℚ) < 4 * unit * 10 ^ (309 : Int) := by
    refine lt_of_le_of_lt h.2.1 ?_
    exact_mod_cast around_high_lt hm
  exact lt_of_mul_lt_mul_left hlt (by positivity)

theorem zpow_neg_lt {u n : Nat} (hu : 2 * u < 10 ^ n) (h : (2 : ℚ) ≤ 4 * u * x) :
    10 ^ (-n : Int) < x := by
  have hx : 0 < x := by
    by_contra hx
    have := mul_nonpos_of_nonneg_of_nonpos (show (0 : ℚ) ≤ 4 * u by positivity) (not_lt.1 hx)
    linarith
  rw [zpow_neg, zpow_natCast, inv_lt_iff_one_lt_mul₀' (by positivity)]
  calc (1 : ℚ) ≤ (2 * u : ℕ) * x := by push_cast; linarith
    _ < (10 ^ n : ℕ) * x := by gcongr
    _ = 10 ^ n * x := by push_cast; rfl

theorem gt_of_holds (h0 : 0 < quantaOfBits m)
    (h : (Interval.around (quantaOfBits m)).Holds x) : 10 ^ (-324 : Int) < x := by
  have hlow : 2 ≤ (Interval.around (quantaOfBits m)).low := by
    have := (around_bounds h0).1
    omega
  have hlow : (2 : ℚ) ≤ (Interval.around (quantaOfBits m)).low := by exact_mod_cast hlow
  exact zpow_neg_lt (u := unit) (n := 324) (by decide +kernel) (hlow.trans h.1)

theorem contains_value_iff {i : Interval} {d : Decimal} :
    i.contains (4 * (d.digits * Nat.pow 10 d.exponent.toNat * unit))
      (Nat.pow 10 (-d.exponent).toNat) = true ↔ i.Holds d.value := by
  refine Interval.contains_iff_holds (Nat.pow_pos (by norm_num)) ?_
  have hpow := ten_zpow_mul d.exponent
  simp only [value, Nat.pow_eq] at hpow ⊢
  push_cast at hpow ⊢
  rw [← hpow]
  ring

/-- A number in the interval is neither out of range nor rounded to another double. -/
theorem toDouble_of_holds {d : Decimal} (negative : Bool) (hm : m < infinityBits)
    (h0 : 0 < quantaOfBits m) (h : (Interval.around (quantaOfBits m)).Holds d.value) :
    d.toDouble negative = Double.ofBits negative m := by
  have hlow := gt_of_holds h0 h
  have hhigh := lt_of_holds hm h
  have hten : (1 : ℚ) ≤ 10 := by norm_num
  have hdigits : d.digits ≠ 0 := by
    intro hz
    have hpos : (0 : ℚ) < 10 ^ (-324 : Int) := zpow_pos (by norm_num) _
    rw [value, hz, Nat.cast_zero, zero_mul] at hlow
    exact hpos.not_gt hlow
  have hsmall : ¬ d.exponent + d.digits.log2 + 1 ≤ -324 := fun hle =>
    absurd (hlow.trans (d.value_lt.trans_le (zpow_le_zpow_right₀ hten hle))) (lt_irrefl _)
  have hlarge : ¬ 309 ≤ d.exponent := fun hle =>
    absurd (((zpow_le_zpow_right₀ hten hle).trans (le_value hdigits)).trans_lt hhigh) (lt_irrefl _)
  rw [toDouble, if_neg (by simp [hdigits, hsmall]), if_neg hlarge, Double.nearest]
  exact congrArg _ (Double.nearestBits_of_contains hm (Nat.pow_pos (by norm_num))
    (contains_value_iff.2 h))

/-- A minus before the double is a minus before the decimal. -/
theorem neg_toDouble (d : Decimal) : -d.toDouble false = d.toDouble true := by
  unfold toDouble
  split
  · exact Double.neg_ofBits (Double.nearestBits_le ..)
  · split
    · exact Double.neg_ofBits le_rfl
    · exact Double.neg_ofBits (Double.nearestBits_le ..)

theorem eq_zero_of_quantaOfBits (h : quantaOfBits m = 0) : m = 0 := by
  obtain ⟨s, sig, rfl, hq, _, hnormal⟩ := Double.exists_significand m
  have hsig : sig = 0 := (Nat.mul_eq_zero.1 (hq ▸ h)).resolve_right (Nat.two_pow_pos s).ne'
  omega

/-- The shortest decimal of a double, and every other of its value, reads back as the double. -/
theorem toDouble_of_value {d : Decimal} (negative : Bool) (hm : m < infinityBits)
    (h : d.value = (shortest (quantaOfBits m)).value) :
    d.toDouble negative = Double.ofBits negative m := by
  rcases Nat.eq_zero_or_pos (quantaOfBits m) with h0 | h0
  · have hzero : d.digits = 0 := by
      rw [h0, shortest, if_pos rfl] at h
      simpa [value, zpow_ne_zero] using h
    obtain rfl := eq_zero_of_quantaOfBits h0
    rw [toDouble, if_pos (.inl hzero)]
    rfl
  · exact toDouble_of_holds negative hm h0 (h ▸ holds_shortest h0)

end

/-! ## Rounding -/

theorem holds_zero {x : ℚ} (h0 : 0 ≤ x) (h : x < 10 ^ (-324 : Int)) :
    (Interval.around (quantaOfBits 0)).Holds x := by
  have haround : Interval.around (quantaOfBits 0) = ⟨0, 2, true⟩ := by decide
  have hlt : 4 * unit * x < 2 := by
    by_contra hle
    exact h.not_gt (zpow_neg_lt (u := unit) (n := 324) (by decide +kernel) (not_lt.1 hle))
  rw [haround]
  exact ⟨by push_cast; positivity, by exact_mod_cast hlt.le, .inl rfl⟩

/-- A decimal is read as the double nearest to it, also where it is too small or too large to be
worked out. -/
theorem toDouble_eq_nearest (negative : Bool) (d : Decimal) :
    d.toDouble negative = Double.nearest negative
      (d.digits * Nat.pow 10 d.exponent.toNat * unit) (Nat.pow 10 (-d.exponent).toNat) := by
  have hten : (1 : ℚ) ≤ 10 := by norm_num
  have hden : 0 < Nat.pow 10 (-d.exponent).toNat := Nat.pow_pos (by norm_num)
  rw [toDouble]
  split
  · rename_i hsmall
    rw [Double.ofQuanta, Double.nearest, Double.nearest, Double.nearestBits_zero]
    refine congrArg _ (Eq.symm ?_)
    rcases hsmall with hzero | hsmall
    · rw [hzero, Nat.zero_mul, Nat.zero_mul, Double.nearestBits_zero]
    · have hlt := d.value_lt.trans_le (zpow_le_zpow_right₀ hten hsmall)
      have hpos : 0 ≤ d.value := by
        rw [value]
        positivity
      exact Double.nearestBits_of_contains (by decide) hden
        (contains_value_iff.2 (holds_zero hpos hlt))
  · rename_i hdigits
    split
    · -- nothing as large as this is near a finite double
      rename_i hlarge
      rw [Double.infinity, Double.nearest]
      refine congrArg _ (Eq.symm ?_)
      by_contra hne
      have hlt := lt_of_le_of_ne (Double.nearestBits_le _ _) hne
      have hholds := contains_value_iff.1 (Double.contains_of_nearestBits hlt hden rfl)
      have hle := (zpow_le_zpow_right₀ hten hlarge).trans
        (le_value fun hzero => hdigits (.inl hzero))
      exact absurd (hle.trans_lt (lt_of_holds hlt hholds)) (lt_irrefl _)
    · rfl

end Reckoner.Decimal
