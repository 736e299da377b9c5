import Reckoner.Proofs.Decimal.Shortest

/-!
# The coarsest grid

The search for the shortest decimal passes over no grid that has a point in the interval
(`onGrid?_ne_none`), so nothing lies on a coarser grid than the decimal it ends with
(`exponent_le_of_holds`). The last digit is therefore not zero (`not_ten_dvd_digits`), and a whole
number of 53 bits is found as it is (`shortest_whole`).
-/

namespace Reckoner.Decimal

open Double (unit unit_eq unit_pos)

variable {quanta : Nat}

/-! ## Grids -/

theorem onGrid?_ne_none (h : 0 < quanta) {n : Nat} {e : Int}
    (hn : (Interval.around quanta).Holds (value ⟨n, e⟩)) :
    onGrid? quanta (.around quanta) e ≠ none := by
  obtain ⟨-, hlow, hhigh, -⟩ := around_bounds h
  have hn := contains_grid_iff.2 hn
  have hstep : 0 < Nat.pow 10 e.toNat * (4 * unit) :=
    Nat.mul_pos (Nat.pow_pos (by norm_num)) (Nat.mul_pos (by norm_num) unit_pos)
  have hscale : 0 < Nat.pow 10 (-e).toNat := Nat.pow_pos (by norm_num)
  simp only [onGrid?]
  generalize Nat.pow 10 e.toNat * (4 * unit) = step at *
  generalize Nat.pow 10 (-e).toNat = scale at *
  -- the double itself lies strictly inside, and between two neighbours on the grid
  have hlow' := Nat.mul_lt_mul_of_pos_right hlow hscale
  have hhigh' := Nat.mul_lt_mul_of_pos_right hhigh hscale
  have hbelow := Nat.div_mul_le_self (4 * quanta * scale) step
  have habove := Nat.lt_mul_div_succ (4 * quanta * scale) hstep
  rw [Nat.mul_comm step] at habove
  generalize 4 * quanta * scale / step = lower at *
  obtain ⟨hleft, hright, hends⟩ := Double.contains_iff.1 hn
  have hfits : (Interval.around quanta).contains (lower * step) scale = true ∨
      (Interval.around quanta).contains ((lower + 1) * step) scale = true := by
    rw [Double.contains_iff, Double.contains_iff]
    rcases Nat.lt_or_ge lower n with hlt | hge
    · have := Nat.mul_le_mul_right step (show lower + 1 ≤ n from hlt)
      exact .inr ⟨by omega, by omega, hends.imp_right fun h => by omega⟩
    · have := Nat.mul_le_mul_right step hge
      exact .inl ⟨by omega, by omega, hends.imp_right fun h => by omega⟩
  split
  · simp
  · split
    · simp
    · simp_all

theorem exponent_of_onGrid? {i : Interval} {e : Int} {d : Decimal}
    (h : onGrid? quanta i e = some d) : d.exponent = e := by
  simp only [onGrid?] at h
  split at h
  · cases h
    rfl
  · split at h
    · cases h
      rfl
    · cases h

/-! ## The search -/

theorem onGrid?_eq_none_of_lt {i : Interval} {steps : Nat} {e : Int}
    (h : (coarsest quanta i steps).exponent < e) (he : e ≤ steps - 1074) :
    onGrid? quanta i e = none := by
  induction steps with
  | zero =>
    rw [coarsest] at h
    dsimp only at h
    omega
  | succ steps ih =>
    rw [coarsest] at h
    split at h
    · rename_i d hd
      rw [exponent_of_onGrid? hd] at h
      omega
    · rename_i hnone
      rcases Int.lt_or_le (steps - 1074) e with hlt | hle
      · obtain rfl : e = steps + 1 - 1074 := by omega
        exact hnone
      · exact ih h hle

/-- Nothing in the interval lies on a coarser grid, as far up as the search begins. -/
theorem exponent_le_of_holds (h : 0 < quanta) {steps n : Nat} {e : Int}
    (hn : (Interval.around quanta).Holds (value ⟨n, e⟩)) (he : e ≤ steps - 1074) :
    e ≤ (coarsest quanta (.around quanta) steps).exponent := by
  by_contra hlt
  exact onGrid?_ne_none h hn (onGrid?_eq_none_of_lt (not_le.1 hlt) he)

/-! ## Where the search begins -/

theorem two_pow_le_ten_pow {b k : Nat} (h : 31 * b ≤ 100 * k) : 2 ^ b ≤ 10 ^ k := by
  refine (Nat.pow_le_pow_iff_left (show 100 ≠ 0 by norm_num)).1 ?_
  calc (2 ^ b) ^ 100 = (2 ^ 100) ^ b := by rw [← Nat.pow_mul, ← Nat.pow_mul, Nat.mul_comm]
    _ ≤ (10 ^ 31) ^ b := Nat.pow_le_pow_left (by norm_num) b
    _ = 10 ^ (31 * b) := (Nat.pow_mul ..).symm
    _ ≤ 10 ^ (100 * k) := Nat.pow_le_pow_right (by norm_num) h
    _ = (10 ^ k) ^ 100 := by rw [Nat.mul_comm, Nat.pow_mul]

theorem ten_pow_le_two_pow {b k : Nat} (h : 10 * k ≤ 3 * b) : 10 ^ k ≤ 2 ^ b := by
  refine (Nat.pow_le_pow_iff_left (show 10 ≠ 0 by norm_num)).1 ?_
  calc (10 ^ k) ^ 10 = 10 ^ (10 * k) := by rw [← Nat.pow_mul, Nat.mul_comm]
    _ ≤ 10 ^ (3 * b) := Nat.pow_le_pow_right (by norm_num) h
    _ = (10 ^ 3) ^ b := Nat.pow_mul ..
    _ ≤ (2 ^ 10) ^ b := Nat.pow_le_pow_left (by norm_num) b
    _ = (2 ^ b) ^ 10 := by rw [← Nat.pow_mul, ← Nat.pow_mul, Nat.mul_comm]

/-- The search begins above the double. -/
theorem lt_exponentBound (quanta : Nat) : (quanta : ℚ) < unit * 10 ^ exponentBound quanta := by
  have hlt : quanta < 2 ^ (quanta.log2 + 1) := Nat.lt_log2_self
  simp only [exponentBound]
  rcases Nat.le_total 1072 quanta.log2 with hle | hle
  · obtain ⟨b, hb⟩ := Nat.exists_eq_add_of_le hle
    have hexp : (((quanta.log2 : Int) - 1072) * 31 / 100 + 1) = (b * 31 / 100 + 1 : Nat) := by omega
    rw [if_pos (by omega), hexp, zpow_natCast]
    have hnat : quanta < unit * 10 ^ (b * 31 / 100 + 1) :=
      calc quanta < 2 ^ (quanta.log2 + 1) := hlt
        _ ≤ 2 ^ (1074 + b) := Nat.pow_le_pow_right (by norm_num) (by omega)
        _ = unit * 2 ^ b := by rw [pow_add, unit_eq]
        _ ≤ unit * 10 ^ (b * 31 / 100 + 1) := Nat.mul_le_mul_left _ (two_pow_le_ten_pow (by omega))
    exact_mod_cast hnat
  · obtain ⟨b, hb⟩ := Nat.exists_eq_add_of_le hle
    have hexp : (if 0 ≤ (quanta.log2 : Int) - 1072 then ((quanta.log2 : Int) - 1072) * 31 / 100 + 1
        else -(-((quanta.log2 : Int) - 1072) * 3 / 10)) ≥ -(b * 3 / 10 : Nat) := by
      split <;> omega
    have hnat : quanta * 10 ^ (b * 3 / 10) < unit :=
      calc quanta * 10 ^ (b * 3 / 10) ≤ quanta * 2 ^ b :=
            Nat.mul_le_mul_left _ (ten_pow_le_two_pow (by omega))
        _ < 2 ^ (quanta.log2 + 1) * 2 ^ b := Nat.mul_lt_mul_of_pos_right hlt (Nat.two_pow_pos b)
        _ = 2 ^ (quanta.log2 + 1 + b) := (Nat.pow_add ..).symm
        _ ≤ 2 ^ 1074 := pow_le_pow_right₀ (by norm_num) (by omega)
        _ = unit := unit_eq.symm
    calc (quanta : ℚ) < unit * 10 ^ (-(b * 3 / 10 : Nat) : Int) := by
          rw [zpow_neg, zpow_natCast, ← div_eq_mul_inv, lt_div_iff₀ (by positivity)]
          exact_mod_cast hnat
      _ ≤ _ := mul_le_mul_of_nonneg_left (zpow_le_zpow_right₀ (by norm_num) hexp)
          (Nat.cast_nonneg _)

theorem le_exponentBound (quanta : Nat) : -1074 ≤ exponentBound quanta := by
  simp only [exponentBound]
  split <;> omega

/-! ## The shortest decimal -/

theorem digits_pos (h : 0 < quanta) : 0 < (shortest quanta).digits := by
  refine Nat.pos_of_ne_zero fun hzero => ?_
  have hlow := (around_bounds h).1
  have hle := (holds_shortest h).1
  rw [value, hzero, Nat.cast_zero, zero_mul, mul_zero] at hle
  have : (Interval.around quanta).low ≤ 0 := by exact_mod_cast hle
  omega

theorem le_exponent_of_holds (h : 0 < quanta) {n : Nat} {e : Int}
    (hn : (Interval.around quanta).Holds (value ⟨n, e⟩)) (he : e ≤ exponentBound quanta) :
    e ≤ (shortest quanta).exponent := by
  rw [shortest, if_neg h.ne']
  have := le_exponentBound quanta
  exact exponent_le_of_holds h hn (by omega)

/-- The shortest decimal does not end in zero: without the zero it would lie on a coarser grid. -/
theorem not_ten_dvd_digits (h : 0 < quanta) : ¬ 10 ∣ (shortest quanta).digits := by
  rintro ⟨k, hk⟩
  have hholds := holds_shortest h
  have hpos := digits_pos h
  have hvalue : (shortest quanta).value = value ⟨k, (shortest quanta).exponent + 1⟩ := by
    rw [value, value, hk, zpow_add_one₀ (by norm_num)]
    push_cast
    ring
  rcases Int.lt_or_le (shortest quanta).exponent (exponentBound quanta) with hlt | hle
  · have := le_exponent_of_holds h (hvalue ▸ hholds) hlt
    omega
  · -- the first grid has no point but one below ten
    obtain ⟨-, -, -, hhigh⟩ := around_bounds h
    have hunit : (0 : ℚ) < unit := by exact_mod_cast unit_pos
    have hk1 : (1 : ℚ) ≤ k := by exact_mod_cast (show 1 ≤ k by omega)
    have hten : (10 : ℚ) ^ exponentBound quanta ≤ 10 ^ (shortest quanta).exponent :=
      zpow_le_zpow_right₀ (by norm_num) hle
    have hsize : (unit : ℚ) * 10 ^ exponentBound quanta ≤
        unit * (k * 10 ^ (shortest quanta).exponent) := by
      refine mul_le_mul_of_nonneg_left (hten.trans ?_) hunit.le
      exact le_mul_of_one_le_left (by positivity) hk1
    have hq := lt_exponentBound quanta
    have hup : (4 * unit * (shortest quanta).value : ℚ) ≤ 6 * quanta :=
      hholds.2.1.trans (by exact_mod_cast hhigh)
    have hk' : (4 * unit * (shortest quanta).value : ℚ) =
        40 * (unit * (k * 10 ^ (shortest quanta).exponent)) := by
      rw [value, hk]
      push_cast
      ring
    have hq0 : (0 : ℚ) ≤ quanta := Nat.cast_nonneg _
    linarith

/-! ## Whole numbers -/

section
variable {n : Nat}

/-- Doubles near a number of 53 bits lie no further apart than whole numbers. -/
theorem around_whole_bounds (hn : 0 < n) (hlt : n < 2 ^ 53) :
    4 * (n * unit) ≤ (Interval.around (n * unit)).low + 2 * unit ∧
      (Interval.around (n * unit)).high ≤ 4 * (n * unit) + 2 * unit := by
  have hlog : n.log2 < 53 := (Nat.log2_lt hn.ne').2 hlt
  have hunit : 2 ^ ((n * unit).log2 - 52) ≤ unit := by
    rw [unit_eq, Double.log2_mul_two_pow hn]
    exact pow_le_pow_right₀ (by norm_num) (by omega)
  simp only [Interval.around, Nat.shiftLeft_eq]
  split <;> omega

/-- A number of 53 bits is its own shortest decimal, but for zeros at its end. -/
theorem shortest_whole (hlt : n < 2 ^ 53) :
    0 ≤ (shortest (n * unit)).exponent ∧
      (shortest (n * unit)).digits * 10 ^ (shortest (n * unit)).exponent.toNat = n := by
  rcases Nat.eq_zero_or_pos n with rfl | hn
  · rw [Nat.zero_mul, shortest, if_pos rfl]
    exact ⟨le_rfl, rfl⟩
  have hq : 0 < n * unit := Nat.mul_pos hn unit_pos
  have hself : (Interval.around (n * unit)).Holds (value ⟨n, 0⟩) := by
    refine holds_of_eq hq ?_
    rw [value, zpow_zero, mul_one]
    push_cast
    ring
  have hexp : 0 ≤ (shortest (n * unit)).exponent := by
    refine le_exponent_of_holds hq hself ?_
    rw [unit_eq, exponentBound, Double.log2_mul_two_pow hn, if_pos (by omega)]
    omega
  refine ⟨hexp, ?_⟩
  obtain ⟨hleft, hright, -⟩ := holds_shortest hq
  obtain ⟨hlow, hhigh⟩ := around_whole_bounds hn hlt
  have hvalue : (4 * unit * (shortest (n * unit)).value : ℚ) =
      (4 * ((shortest (n * unit)).digits * 10 ^ (shortest (n * unit)).exponent.toNat * unit) : ℕ) := by
    rw [value, ← Int.toNat_of_nonneg hexp, zpow_natCast, Int.toNat_natCast]
    push_cast
    ring
  rw [hvalue] at hleft hright
  generalize (shortest (n * unit)).digits * 10 ^ (shortest (n * unit)).exponent.toNat = k at *
  have hleft : (Interval.around (n * unit)).low ≤ 4 * (k * unit) := by exact_mod_cast hleft
  have hright : 4 * (k * unit) ≤ (Interval.around (n * unit)).high := by exact_mod_cast hright
  -- the interval is too narrow for another whole number
  rcases Nat.lt_trichotomy k n with hlt | heq | hgt
  · have := Nat.mul_le_mul_right unit (show k + 1 ≤ n from hlt)
    rw [Nat.succ_mul] at this
    have := unit_pos
    omega
  · exact heq
  · have := Nat.mul_le_mul_right unit (show n + 1 ≤ k from hgt)
    rw [Nat.succ_mul] at this
    have := unit_pos
    omega

/-- The shortest decimal is at least half of the double. -/
theorem half_le_value (h : 0 < quanta) : (quanta : ℚ) ≤ 2 * unit * (shortest quanta).value := by
  have hlow := (around_bounds h).1
  have hle : (2 * quanta : ℚ) ≤ 4 * unit * (shortest quanta).value :=
    le_trans (by exact_mod_cast hlow) (holds_shortest h).1
  linarith

end

end Reckoner.Decimal
