import Reckoner.Double.Remainder
import Reckoner.Proofs.Double.Value

/-!
# Remainders are exact

The remainder of two magnitudes is no larger than the first of them and no larger than half of the
second (`natAbs_remainderQuanta_le`, `two_mul_natAbs_remainderQuanta_le`), and it is a multiple of
the finer quantum of the two (`dvd_natAbs_remainderQuanta`). So its significand has 53 bits if
theirs have, and `remainder` rounds nothing (`parts_remainder`): it is `x - n * y` for the whole
number `n` nearest to the quotient (`remainder_exact`).
-/

namespace Reckoner.Double

/-! ## Magnitudes -/

section
variable {p q : Nat}

theorem cast_mul_roundDiv (p q : Nat) :
    ((q * roundDiv p q : Nat) : Int) = p - remainderQuanta p q := by
  rw [remainderQuanta]
  push_cast
  ring

theorem two_mul_natAbs_remainderQuanta_le (hq : 0 < q) :
    2 * (remainderQuanta p q).natAbs ≤ q := by
  have hbounds := roundDiv_bounds p hq
  have hrest := cast_mul_roundDiv p q
  generalize q * roundDiv p q = product at *
  omega

/-- Only an even multiple is as far as half of `q` away. -/
theorem even_roundDiv (hq : 0 < q) (h : 2 * (remainderQuanta p q).natAbs = q) :
    Even (roundDiv p q) := by
  by_contra hodd
  have hstrict := roundDiv_strict hq (Nat.odd_iff.1 (Nat.not_even_iff_odd.1 hodd))
  have hrest := cast_mul_roundDiv p q
  generalize q * roundDiv p q = product at *
  omega

theorem natAbs_remainderQuanta_le (hq : 0 < q) : (remainderQuanta p q).natAbs ≤ p := by
  have hbounds := roundDiv_bounds p hq
  have hrest := cast_mul_roundDiv p q
  -- what is rounded to a positive multiple is at least half of `q`
  have hmul : roundDiv p q = 0 ∨ q ≤ q * roundDiv p q :=
    (Nat.eq_zero_or_pos _).imp_right (Nat.le_mul_of_pos_right q)
  rcases hmul with h | h
  · rw [h, Nat.mul_zero] at hrest
    omega
  · generalize q * roundDiv p q = product at *
    omega

theorem dvd_natAbs_remainderQuanta {d : Nat} (hp : d ∣ p) (hq : d ∣ q) :
    d ∣ (remainderQuanta p q).natAbs := by
  rw [← Int.natCast_dvd, remainderQuanta]
  exact dvd_sub (Int.natCast_dvd_natCast.2 hp)
    ((Int.natCast_dvd_natCast.2 hq).mul_left _)

/-- The significand of a remainder is no longer than those it comes of. -/
theorem exists_significand_remainderQuanta {s s' sig sig' : Nat} (hp : p = sig * 2 ^ s)
    (hq : q = sig' * 2 ^ s') (hpos : 0 < q) (hsig : sig < 2 ^ 53) (hsig' : sig' < 2 ^ 53) :
    ∃ t c, (remainderQuanta p q).natAbs = c * 2 ^ t ∧ c < 2 ^ 53 := by
  have hle := @natAbs_remainderQuanta_le p q hpos
  have hle' : (remainderQuanta p q).natAbs ≤ q := by
    have := @two_mul_natAbs_remainderQuanta_le p q hpos
    omega
  have hdvd : 2 ^ min s s' ∣ (remainderQuanta p q).natAbs :=
    dvd_natAbs_remainderQuanta
      (hp ▸ (pow_dvd_pow 2 (Nat.min_le_left s s')).mul_left sig)
      (hq ▸ (pow_dvd_pow 2 (Nat.min_le_right s s')).mul_left sig')
  obtain ⟨c, hc⟩ := hdvd
  rw [Nat.mul_comm] at hc
  refine ⟨min s s', c, hc, ?_⟩
  have hpow := Nat.two_pow_pos (min s s')
  rcases Nat.le_total s s' with h | h
  · rw [hc, hp, Nat.min_eq_left h] at hle
    exact (Nat.le_of_mul_le_mul_right hle (Nat.two_pow_pos s)).trans_lt hsig
  · rw [hc, hq, Nat.min_eq_right h] at hle'
    exact (Nat.le_of_mul_le_mul_right hle' (Nat.two_pow_pos s')).trans_lt hsig'

/-- The remainder as a part of the quotient. -/
theorem abs_div_sub_roundDiv (hq : 0 < q) :
    |(p / q : ℚ) - roundDiv p q| = (remainderQuanta p q).natAbs / q := by
  have hpos : (0 : ℚ) < q := by exact_mod_cast hq
  have hrest : (remainderQuanta p q : ℚ) = p - roundDiv p q * q := by
    rw [remainderQuanta]
    push_cast
    rfl
  have hdiv : (p / q : ℚ) - roundDiv p q = remainderQuanta p q / q := by
    rw [hrest, sub_div, mul_div_assoc, div_self hpos.ne', mul_one]
  rw [hdiv, abs_div, abs_of_pos hpos, Nat.cast_natAbs, Int.cast_abs]

end

/-! ## Doubles -/

section
variable {x y : Float} {a b : Bool} {p q : Nat}

/-- Nothing of a remainder is rounded away. -/
theorem parts_remainder (hx : parts x = .finite a p) (hy : parts y = .finite b q) (hq : 0 < q) :
    parts (remainder x y) = .finite (a != decide (remainderQuanta p q < 0))
      (remainderQuanta p q).natAbs := by
  obtain ⟨hbound, s, sig, hp, hsig⟩ := exists_significand_of_parts hx
  obtain ⟨-, s', sig', hq', hsig'⟩ := exists_significand_of_parts hy
  obtain ⟨t, c, hc, hlt⟩ := exists_significand_remainderQuanta hp hq' hq hsig hsig'
  have hremainder : remainder x y = ofQuanta (a != decide (remainderQuanta p q < 0))
      (remainderQuanta p q).natAbs := by
    simp only [remainder, hx, hy, if_neg hq.ne']
  rw [hremainder]
  exact parts_ofQuanta hlt hc ((natAbs_remainderQuanta_le hq).trans_lt hbound)

theorem toRat?_remainder (hx : parts x = .finite a p) (hy : parts y = .finite b q) (hq : 0 < q) :
    toRat? (remainder x y) = some (signed a (remainderQuanta p q / unit : ℚ)) := by
  rw [toRat?_of_parts (parts_remainder hx hy hq), signed_div, signed_natAbs, ← signed_div]

/-- The multiple that is taken off, with the sign of the quotient. -/
def nearestMultiple (a b : Bool) (p q : Nat) : Int := signed (a != b) (roundDiv p q : Int)

theorem sub_nearestMultiple (a b : Bool) (p q : Nat) :
    signed a (p / unit : ℚ) - nearestMultiple a b p q * signed b (q / unit : ℚ) =
      signed a (remainderQuanta p q / unit : ℚ) := by
  rw [nearestMultiple, cast_signed, signed_mul_signed, signed_sub_signed, remainderQuanta]
  push_cast
  ring_nf

theorem abs_quotient_sub (a b : Bool) (hq : 0 < q) :
    |signed a (p / unit : ℚ) / signed b (q / unit : ℚ) - nearestMultiple a b p q| =
      (remainderQuanta p q).natAbs / q := by
  have hunit : (unit : ℚ) ≠ 0 := by exact_mod_cast unit_pos.ne'
  rw [nearestMultiple, cast_signed, signed_div_signed, div_div_div_cancel_right₀ hunit,
    signed_sub_signed, abs_signed, Int.cast_natCast, abs_div_sub_roundDiv hq]

theorem abs_quotient_sub_le (a b : Bool) (hq : 0 < q) :
    |signed a (p / unit : ℚ) / signed b (q / unit : ℚ) - nearestMultiple a b p q| ≤ 1 / 2 := by
  have hpos : (0 : ℚ) < q := by exact_mod_cast hq
  have hle : (2 * (remainderQuanta p q).natAbs : ℚ) ≤ q := by
    exact_mod_cast two_mul_natAbs_remainderQuanta_le hq
  rw [abs_quotient_sub a b hq, div_le_div_iff₀ hpos two_pos]
  linarith

theorem even_nearestMultiple (a b : Bool) (hq : 0 < q)
    (h : |signed a (p / unit : ℚ) / signed b (q / unit : ℚ) - nearestMultiple a b p q| = 1 / 2) :
    Even (nearestMultiple a b p q) := by
  have hpos : (0 : ℚ) < q := by exact_mod_cast hq
  rw [abs_quotient_sub a b hq, div_eq_div_iff hpos.ne' two_ne_zero, one_mul] at h
  have htie : 2 * (remainderQuanta p q).natAbs = q := by
    rw [Nat.mul_comm]
    exact_mod_cast h
  have heven : Even (roundDiv p q : Int) := (Int.even_coe_nat _).2 (even_roundDiv hq htie)
  rw [nearestMultiple]
  cases a != b
  · exact heven
  · exact heven.neg

theorem abs_sub_mul_le {v w : ℚ} {n : ℤ} (hw : w ≠ 0) (h : |v / w - n| ≤ 1 / 2) :
    |v - n * w| ≤ |w| / 2 := by
  have hsplit : v - n * w = (v / w - n) * w := by rw [sub_mul, div_mul_cancel₀ v hw]
  calc |v - n * w| = |v / w - n| * |w| := by rw [hsplit, abs_mul]
    _ ≤ 1 / 2 * |w| := mul_le_mul_of_nonneg_right h (abs_nonneg w)
    _ = |w| / 2 := by ring

/-- A zero that is left has the sign of `x`. -/
theorem isNegative_remainder (hx : parts x = .finite a p) (hy : parts y = .finite b q)
    (hq : 0 < q) (h : signed a (remainderQuanta p q / unit : ℚ) = 0) :
    isNegative (remainder x y) = isNegative x := by
  have hunit : (unit : ℚ) ≠ 0 := by exact_mod_cast unit_pos.ne'
  rw [signed_eq_zero, div_eq_zero_iff, or_iff_left hunit, Int.cast_eq_zero] at h
  rw [isNegative_of_parts (parts_remainder hx hy hq), isNegative_of_parts hx, h]
  exact Bool.bne_false a

end

/-- There is no remainder of an infinity or by a zero, nor of or by what is not a number. -/
theorem remainder_eq_nan {x y : Float} (h : parts x = .nan ∨ (∃ a, parts x = .infinite a) ∨
    parts y = .nan ∨ ∃ b, parts y = .finite b 0) : remainder x y = nan := by
  rcases h with hx | ⟨a, hx⟩ | hy | ⟨b, hy⟩
  · rw [remainder, hx]
  · rw [remainder, hx]
  · cases hx : parts x <;> simp only [remainder, hx, hy]
  · cases hx : parts x <;> simp only [remainder, hx, hy, if_true]

/-- The remainder of a finite double by another that is not zero is exactly what is left of it when
the nearest multiple is taken off, the even one of two that are equally near. A remainder by an
infinity changes nothing, and in all other cases there is none. -/
theorem remainder_exact (x y : Float) :
    (x.isFinite = true → y.isFinite = true → (y == 0) = false →
      ∃ (v w : ℚ) (n : ℤ), toRat? x = some v ∧ toRat? y = some w ∧ w ≠ 0 ∧
        |v / w - n| ≤ 1 / 2 ∧ (|v / w - n| = 1 / 2 → Even n) ∧
        toRat? (remainder x y) = some (v - n * w) ∧ |v - n * w| ≤ |w| / 2 ∧
        (v - n * w = 0 → isNegative (remainder x y) = isNegative x)) ∧
    (x.isFinite = true → y.isInf = true → remainder x y = x) ∧
    (x.isNaN = true ∨ y.isNaN = true ∨ (y == 0) = true ∨ x.isInf = true →
      (remainder x y).isNaN = true) := by
  refine ⟨fun hx hy hne => ?_, fun hx hy => ?_, fun h => ?_⟩
  · obtain ⟨a, p, hx⟩ := isFinite_iff.1 hx
    obtain ⟨b, q, hy⟩ := isFinite_iff.1 hy
    rw [beq_zero hy, decide_eq_false_iff_not] at hne
    have hq : 0 < q := Nat.pos_of_ne_zero hne
    have hw : signed b (q / unit : ℚ) ≠ 0 := by
      rw [Ne, signed_eq_zero]
      exact div_ne_zero (by exact_mod_cast hne) (by exact_mod_cast unit_pos.ne')
    -- what is left when the nearest multiple is taken off is a double, so nothing is rounded
    have hnear := @abs_quotient_sub_le p q a b hq
    refine ⟨_, _, nearestMultiple a b p q, toRat?_of_parts hx, toRat?_of_parts hy, hw, hnear,
      even_nearestMultiple a b hq, ?_, abs_sub_mul_le hw hnear, ?_⟩ <;> rw [sub_nearestMultiple]
    · exact toRat?_remainder hx hy hq
    · exact isNegative_remainder hx hy hq
  · obtain ⟨a, p, hx⟩ := isFinite_iff.1 hx
    obtain ⟨b, hy⟩ := isInf_iff.1 hy
    simp only [remainder, hx, hy]
  · have hnan : remainder x y = nan := by
      rcases h with h | h | h | h
      · exact remainder_eq_nan (.inl (isNaN_iff.1 h))
      · exact remainder_eq_nan (.inr (.inr (.inl (isNaN_iff.1 h))))
      · exact remainder_eq_nan (.inr (.inr (.inr (parts_of_beq_zero h))))
      · exact remainder_eq_nan (.inr (.inl (isInf_iff.1 h)))
    rw [hnan]
    rfl

/-- A tie: minus seven lies half way between minus six and minus eight, and the even multiple of two
is taken off. An infinite divisor and a divisor of negative zero. -/
theorem remainder_exact_tie :
    (Float.isFinite (-7) = true ∧ Float.isFinite 2 = true ∧ ((2 : Float) == 0) = false ∧
      toRat? (remainder (-7) 2) = some 1) ∧
    ((infinity true).isInf = true ∧ remainder (-7) (infinity true) = -7) ∧
    ((-0 : Float) == 0) = true ∧ (remainder 2 (-0)).isNaN = true := by
  have hseven : Float.isFinite (-7) = true := rfl
  have htwo : Float.isFinite 2 = true := rfl
  have hne : ((2 : Float) == 0) = false := rfl
  obtain ⟨v, w, n, hv, hw, -, hnear, htie, hrest, -⟩ := (remainder_exact (-7) 2).1 hseven htwo hne
  have hx : toRat? (-7) = some (-7) := by
    have hparts : parts (-7) = .finite true (7 * unit) := rfl
    simpa [signed] using toRat?_of_whole hparts
  have hy : toRat? 2 = some 2 := by
    have hparts : parts 2 = .finite false (2 * unit) := rfl
    simpa [signed] using toRat?_of_whole hparts
  obtain rfl := Option.some.inj (hv.symm.trans hx)
  obtain rfl := Option.some.inj (hw.symm.trans hy)
  have hn : n = -4 := by
    rw [abs_le] at hnear
    have hlow : (-4 : ℚ) ≤ n := by linarith
    have hhigh : (n : ℚ) ≤ -3 := by linarith
    have hcases : n = -4 ∨ n = -3 := by
      have : -4 ≤ n := by exact_mod_cast hlow
      have : n ≤ -3 := by exact_mod_cast hhigh
      omega
    refine hcases.resolve_right ?_
    rintro rfl
    exact absurd (htie (by norm_num [abs_div])) (by decide)
  have hinf : (infinity true).isInf = true := rfl
  have hzero : ((-0 : Float) == 0) = true := rfl
  refine ⟨⟨hseven, htwo, hne, ?_⟩, ⟨hinf, ?_⟩, hzero, ?_⟩
  · rw [hrest, hn]
    norm_num
  · exact (remainder_exact (-7) (infinity true)).2.1 hseven hinf
  · exact (remainder_exact 2 (-0)).2.2 (.inr (.inr (.inl hzero)))

end Reckoner.Double
