import Reckoner.Double.Whole
import Reckoner.Proofs.Double.Arithmetic

/-!
# Rounding to decimal places

A finite rounded value comes of a finite double (`isFinite_of_roundPlaces`). A whole number is
multiplied by a power of ten, rounded to the nearest whole number of 53 bits (`nearestWhole`), and
divided again (`roundPlaces_whole`); `roundPlaces_eq_iff` says when it is itself again.
-/

namespace Reckoner.Double

/-- What is rounded to a finite double is finite. -/
theorem isFinite_of_roundPlaces {x : Float} {places : Int} (h : (roundPlaces x places).isFinite = true) :
    x.isFinite = true := by
  cases places with
  | ofNat n => exact isFinite_of_mul (isFinite_of_roundEven (isFinite_of_div h))
  | negSucc n => exact isFinite_of_div (isFinite_of_roundEven (isFinite_of_mul h))


/-! ## Whole numbers of 53 bits -/

/-- The nearest whole number with a significand of 53 bits, a tie going to the even significand. -/
def nearestWhole (n : Nat) : Nat :=
  let shift := n.log2 - 52
  roundDiv n (1 <<< shift) <<< shift

/-- The least whole number that rounding cannot keep finite, `2 ^ 1024`. -/
def wholeBound : Nat := 1 <<< 1024

theorem wholeBound_mul_unit : wholeBound * unit = 2 ^ 53 * 2 ^ 2045 := by decide +kernel

theorem nearestWhole_eq {n shift : Nat} (h : n.log2 - 52 = shift) :
    nearestWhole n = roundDiv n (2 ^ shift) * 2 ^ shift := by
  simp only [nearestWhole, h, Nat.shiftLeft_eq, Nat.one_mul]

/-- What has no more than 53 bits before its zeros is not rounded. -/
theorem nearestWhole_mul_two_pow {q : Nat} (hq : q < 2 ^ 53) (e : Nat) :
    nearestWhole (q * 2 ^ e) = q * 2 ^ e := by
  rcases Nat.eq_zero_or_pos q with rfl | hpos
  · rw [Nat.zero_mul]
    rfl
  · have hlt : q.log2 < 53 := (Nat.log2_lt hpos.ne').2 hq
    obtain ⟨k, hk⟩ : ∃ k, e = k + (q.log2 + e - 52) := ⟨e - (q.log2 + e - 52), by omega⟩
    rw [nearestWhole_eq (congrArg (· - 52) (log2_mul_two_pow hpos e))]
    generalize q.log2 + e - 52 = shift at hk
    rw [hk, Nat.pow_add, ← Nat.mul_assoc, roundDiv_mul_self _ (Nat.two_pow_pos shift)]

section
variable {n : Nat}

theorem nearestWhole_of_lt (h : n < 2 ^ 53) : nearestWhole n = n := by
  have hwhole := nearestWhole_mul_two_pow h 0
  rwa [Nat.pow_zero, Nat.mul_one] at hwhole

theorem nearestWhole_pos (h : 0 < n) : 0 < nearestWhole n := by
  have hle : 1 * 2 ^ (n.log2 - 52) ≤ n := by
    rw [Nat.one_mul]
    exact (Nat.pow_le_pow_right (by norm_num) (Nat.sub_le ..)).trans (Nat.log2_self_le h.ne')
  rw [nearestWhole_eq rfl]
  exact Nat.mul_pos (le_roundDiv (Nat.two_pow_pos _) hle) (Nat.two_pow_pos _)

/-- The nearest double to a whole number is the nearest whole number of 53 bits. -/
theorem exists_nearestBits_whole (n : Nat) : ∃ s sig, sig ≤ 2 ^ 53 ∧ (0 < s → 2 ^ 52 ≤ sig) ∧
    sig * 2 ^ s = nearestWhole n * unit ∧
      nearestBits (n * unit) 1 = min (s * 2 ^ 52 + sig) infinityBits := by
  generalize hs : (n * unit / 1).log2 - 52 = s
  obtain ⟨low, high⟩ := bounds_of_log2 Nat.one_pos hs
  obtain ⟨hle, hnormal⟩ := roundDiv_significand Nat.one_pos low high
  refine ⟨s, _, hle, hnormal, ?_, nearestBits_of_log2 hs⟩
  rcases Nat.eq_zero_or_pos n with rfl | hpos
  · simp [roundDiv, nearestWhole]
  · rw [Nat.div_one, unit_eq, log2_mul_two_pow hpos] at hs
    rw [unit_eq, Nat.one_mul]
    rcases Nat.le_total 52 n.log2 with h | h
    · obtain rfl : s = n.log2 - 52 + 1074 := by omega
      rw [nearestWhole_eq rfl, pow_add, roundDiv_mul_right (pow_pos two_pos 1074), Nat.mul_assoc]
    · -- there are bits to spare
      have hlt : n < 2 ^ 53 := Nat.lt_log2_self.trans_le
        (Nat.pow_le_pow_right (by norm_num) (by omega))
      have hpow : (2 : Nat) ^ 1074 = 2 ^ (1074 - s) * 2 ^ s := by
        rw [← Nat.pow_add, Nat.sub_add_cancel (by omega)]
      rw [nearestWhole_of_lt hlt, hpow, ← Nat.mul_assoc, roundDiv_mul_self _ (Nat.two_pow_pos s)]

theorem parts_nearest_whole (negative : Bool) (h : nearestWhole n < wholeBound) :
    parts (nearest negative (n * unit) 1) = .finite negative (nearestWhole n * unit) := by
  obtain ⟨s, sig, hle, hnormal, hquanta, hbits⟩ := exists_nearestBits_whole n
  have hlt : s * 2 ^ 52 + sig < infinityBits := by
    rwa [lt_infinityBits_iff hle hnormal, hquanta, ← wholeBound_mul_unit,
      Nat.mul_lt_mul_right unit_pos]
  rw [nearest, hbits, Nat.min_eq_left hlt.le, parts_ofBits hlt,
    quantaOfBits_significand hle hnormal, hquanta]

theorem nearest_whole_eq_infinity (negative : Bool) (h : ¬ nearestWhole n < wholeBound) :
    nearest negative (n * unit) 1 = infinity negative := by
  obtain ⟨s, sig, hle, hnormal, hquanta, hbits⟩ := exists_nearestBits_whole n
  have hge : ¬ s * 2 ^ 52 + sig < infinityBits := by
    rwa [lt_infinityBits_iff hle hnormal, hquanta, ← wholeBound_mul_unit,
      Nat.mul_lt_mul_right unit_pos]
  rw [nearest, hbits, Nat.min_eq_right (not_lt.1 hge), infinity]

variable {x : Float} {negative : Bool}

theorem roundEven_whole (h : parts x = .finite negative (n * unit)) : roundEven x = x := by
  rw [roundEven, mapWhole, h]
  simp only [roundDiv_mul_self n unit_pos]
  exact ofQuanta_eq h

theorem parts_tenPower : ∀ d ≤ 22, parts (tenPower d) = .finite false (10 ^ d * unit) := by
  decide +kernel

theorem infinity_div_tenPower : ∀ d ≤ 22, ∀ negative,
    infinity negative / tenPower d = infinity negative := by
  decide +kernel

theorem roundPlaces_whole {d : Nat} (hx : parts x = .finite negative (n * unit)) (hd : d ≤ 22) :
    roundPlaces x d =
      if nearestWhole (n * 10 ^ d) < wholeBound then
        nearest negative (nearestWhole (n * 10 ^ d) * unit) (10 ^ d)
      else infinity negative := by
  have hten := parts_tenPower d hd
  have hproduct : x * tenPower d = nearest negative (n * 10 ^ d * unit) 1 := by
    rw [mul_eq_nearest hx hten, Bool.bne_false, Nat.mul_mul_mul_comm, ← Nat.mul_assoc,
      ← @nearest_mul_right (n * 10 ^ d * unit) 1 unit negative unit_pos, Nat.one_mul]
  change roundEven (x * tenPower d) / tenPower d = _
  rw [hproduct]
  split
  · rename_i h
    have hwhole := parts_nearest_whole negative h
    have hpos : 0 < 10 ^ d * unit := Nat.mul_pos (Nat.pow_pos (by norm_num)) unit_pos
    rw [roundEven_whole hwhole, div_eq_nearest hwhole hten hpos, Bool.bne_false,
      nearest_mul_right negative unit_pos]
  · rename_i h
    have hinf : roundEven (infinity negative) = infinity negative := by
      rw [roundEven, mapWhole, parts_infinity]
    rw [nearest_whole_eq_infinity negative h, hinf, infinity_div_tenPower d hd]

end

/-! ## Whole numbers that are left alone -/

/-- Whether a whole number is its own value at some places: times the power of ten and rounded, it
is finite and off by less than half the distance to the next double. -/
def Survives (n places : Nat) : Prop :=
  nearestWhole (n * 10 ^ places) < wholeBound ∧
    2 ^ 53 * ((nearestWhole (n * 10 ^ places) : Int) - (n * 10 ^ places : Nat)).natAbs <
      10 ^ places * 2 ^ n.log2

instance (n places : Nat) : Decidable (Survives n places) :=
  inferInstanceAs (Decidable (_ ∧ _))

theorem le_of_two_pow_mul {a b c o : Nat} (hodd : o % 2 = 1) (hc : 0 < c)
    (h : 2 ^ a * c = 2 ^ b * o) : o ≤ c := by
  have hcop : Nat.Coprime o (2 ^ a) := (Nat.odd_iff.2 hodd).coprime_two_right.pow_right a
  exact Nat.le_of_dvd hc (hcop.dvd_of_dvd_mul_left (h ▸ Dvd.intro_left _ rfl))

theorem exists_nearestWhole (n : Nat) : ∃ c t, c ≤ 2 ^ 53 ∧ nearestWhole n = c * 2 ^ t := by
  obtain ⟨low, high⟩ := @bounds_of_log2 _ n _ Nat.one_pos rfl
  have hle := (roundDiv_significand Nat.one_pos low high).1
  rw [Nat.one_mul, Nat.div_one] at hle
  exact ⟨_, _, hle, nearestWhole_eq rfl⟩

section
variable {n sig l d : Nat}

theorem nearestWhole_mul_ten_pow {c : Nat} (hc : c * 5 ^ d < 2 ^ 53) (l : Nat) :
    nearestWhole (c * 2 ^ l * 10 ^ d) = c * 2 ^ l * 10 ^ d := by
  have hten : c * 2 ^ l * 10 ^ d = c * 5 ^ d * 2 ^ (l + d) := by
    have : (10 : Nat) ^ d = 5 ^ d * 2 ^ d := by rw [← Nat.mul_pow]
    rw [this, Nat.pow_add]
    ring
  rw [hten, nearestWhole_mul_two_pow hc]

theorem nearestWhole_two_pow_mul_ten_pow (hd : d ≤ 22) (l : Nat) :
    nearestWhole (2 ^ l * 10 ^ d) = 2 ^ l * 10 ^ d := by
  have hfive : 1 * 5 ^ d < 2 ^ 53 := by
    rw [Nat.one_mul]
    exact (Nat.pow_le_pow_right (by norm_num) hd).trans_lt (by norm_num : 5 ^ 22 < 2 ^ 53)
  have h := nearestWhole_mul_ten_pow hfive l
  rwa [Nat.one_mul] at h

theorem five_pow_odd (d : Nat) : 5 ^ d % 2 = 1 := by
  rw [Nat.pow_mod]
  simp

/-- No product with a power of ten is rounded by exactly half the distance. -/
theorem nearestWhole_ne_half (h : n * 2 ^ 52 = sig * 2 ^ l) (hsig : 2 ^ 52 < sig) :
    2 ^ 53 * nearestWhole (n * 10 ^ d) ≠ 2 ^ 53 * (n * 10 ^ d) + 10 ^ d * 2 ^ l ∧
      2 ^ 53 * nearestWhole (n * 10 ^ d) + 10 ^ d * 2 ^ l ≠ 2 ^ 53 * (n * 10 ^ d) := by
  obtain ⟨c, t, hc, hr⟩ := exists_nearestWhole (n * 10 ^ d)
  have hten : (10 : Nat) ^ d = 5 ^ d * 2 ^ d := by rw [← Nat.mul_pow]
  have hn : 2 ^ 53 * (n * 10 ^ d) = 2 ^ (l + d) * (5 ^ d * (2 * sig)) := by
    calc 2 ^ 53 * (n * 10 ^ d) = 2 * (n * 2 ^ 52) * 10 ^ d := by ring
      _ = 2 ^ (l + d) * (5 ^ d * (2 * sig)) := by rw [h, hten]; ring
  have hhalf : 10 ^ d * 2 ^ l = 2 ^ (l + d) * 5 ^ d := by rw [hten]; ring
  have hfive := five_pow_odd d
  have hfive_pos : 0 < 5 ^ d := Nat.pow_pos (by norm_num)
  -- both sides are an odd number times the same power of two, and that one is too long for a
  -- significand
  have hodd : ∀ k, k % 2 = 1 → 2 ^ 53 < k → 2 ^ 53 * nearestWhole (n * 10 ^ d) ≠
      2 ^ (l + d) * (5 ^ d * k) := by
    intro k hk hlt heq
    rw [hr, Nat.mul_comm c, ← Nat.mul_assoc, ← Nat.pow_add] at heq
    have hpos : 0 < c := by
      refine Nat.pos_of_ne_zero fun h0 => ?_
      rw [h0, Nat.mul_zero] at heq
      have : 0 < 2 ^ (l + d) * (5 ^ d * k) := by positivity
      omega
    have hle := le_of_two_pow_mul (by rw [Nat.mul_mod, hfive, hk]) hpos heq
    have := Nat.le_mul_of_pos_left k hfive_pos
    omega
  constructor
  · have := hodd (2 * sig + 1) (by omega) (by omega)
    rwa [Nat.mul_add, Nat.mul_add, ← hn, Nat.mul_one, ← hhalf] at this
  · intro heq
    refine hodd (2 * sig - 1) (by omega) (by omega) ?_
    rw [Nat.mul_sub, Nat.mul_sub, ← hn, Nat.mul_one, ← hhalf]
    omega

open Decimal in
theorem contains_mul_right {lo hi num den c : Nat} {closed : Bool} (hc : 0 < c) :
    Interval.contains ⟨lo * c, hi * c, closed⟩ (num * c) den =
      Interval.contains ⟨lo, hi, closed⟩ num den := by
  have hle : ∀ a b : Nat, a * c ≤ b * c ↔ a ≤ b := fun a b => Nat.mul_le_mul_right_iff hc
  have hlt : ∀ a b : Nat, a * c < b * c ↔ a < b := fun a b => Nat.mul_lt_mul_right hc
  simp only [Interval.contains, Nat.mul_right_comm _ c, hle, hlt]

open Decimal in
/-- The interval around a whole number, in units of `2 ^ -54`. -/
theorem around_whole (hn : 0 < n) (hsig : sig < 2 ^ 53) {s : Nat} (hnormal : 0 < s → 2 ^ 52 ≤ sig)
    (hq : n * unit = sig * 2 ^ s) :
    n * 2 ^ 52 = sig * 2 ^ n.log2 ∧ 2 ^ 52 ≤ sig ∧
      Interval.around (n * unit) =
        ⟨(2 ^ 54 * n - if sig = 2 ^ 52 then 2 ^ n.log2 else 2 * 2 ^ n.log2) * 2 ^ 1022,
          (2 ^ 54 * n + 2 * 2 ^ n.log2) * 2 ^ 1022, sig % 2 == 0⟩ := by
  have hlog := log2_significand hsig hnormal
  rw [← hq, unit_eq, log2_mul_two_pow hn] at hlog
  obtain rfl : s = n.log2 + 1022 := by omega
  have hunit : unit = 2 ^ 52 * 2 ^ 1022 := by rw [unit_eq, ← pow_add]
  have hwhole : n * 2 ^ 52 = sig * 2 ^ n.log2 := by
    rw [hunit, ← Nat.mul_assoc, pow_add, ← Nat.mul_assoc] at hq
    exact Nat.eq_of_mul_eq_mul_right (pow_pos two_pos 1022) hq
  refine ⟨hwhole, hnormal (by omega), ?_⟩
  have hfour : 4 * (sig * 2 ^ (n.log2 + 1022)) = 2 ^ 54 * n * 2 ^ 1022 := by
    rw [pow_add, ← Nat.mul_assoc sig, ← hwhole]
    generalize (2 : Nat) ^ 1022 = scale
    ring
  rw [hq, around_significand hsig hnormal, hfour, pow_add, ← Nat.mul_assoc 2, Nat.sub_mul,
    Nat.add_mul]
  have hpos : 0 < n.log2 + 1022 := by omega
  simp only [hpos, and_true]
  split <;> rfl

variable {x : Float} {negative : Bool}

/-- A whole number of no more than 53 bits after the factors of five survives. -/
theorem survives_of_lt (hn : n * 5 ^ d < 2 ^ 53) (hd : d ≤ 22) : Survives n d := by
  have hten : n * 10 ^ d = n * 5 ^ d * 2 ^ d := by rw [Nat.mul_assoc, ← Nat.mul_pow]
  have hwhole := nearestWhole_mul_ten_pow hn 0
  rw [Nat.pow_zero, Nat.mul_one] at hwhole
  refine ⟨?_, ?_⟩
  · rw [hwhole, hten]
    have hpow : 2 ^ d ≤ 2 ^ 22 := Nat.pow_le_pow_right (by norm_num) hd
    have hbound : 2 ^ 53 * 2 ^ 22 < wholeBound := by decide
    exact (Nat.mul_le_mul hn.le hpow).trans_lt hbound
  · rw [hwhole, Int.sub_self]
    have : 0 < 10 ^ d * 2 ^ n.log2 := by positivity
    omega

open Decimal in
/-- The rounded product, scaled back, lies in the interval around the number where it is off by less
than half the distance. -/
theorem contains_nearestWhole_iff {m : Nat} (hm : quantaOfBits m = n * unit) (hd : d ≤ 22) :
    (Interval.around (n * unit)).contains (4 * (nearestWhole (n * 10 ^ d) * unit)) (10 ^ d) = true ↔
      2 ^ 53 * ((nearestWhole (n * 10 ^ d) : Int) - (n * 10 ^ d : Nat)).natAbs <
        10 ^ d * 2 ^ n.log2 := by
  have hten : 0 < 10 ^ d := Nat.pow_pos (by norm_num)
  rcases Nat.eq_zero_or_pos n with rfl | hn
  · rw [Nat.zero_mul]
    refine iff_of_true ?_ ?_
    · have haround : Interval.around 0 = ⟨0, 2, true⟩ := rfl
      have hzero : nearestWhole 0 = 0 := by decide
      rw [haround, Nat.zero_mul, hzero]
      simp [Interval.contains]
    · simp [nearestWhole, roundDiv]
  · obtain ⟨s, sig, -, hq, hsig, hnormal⟩ := exists_significand m
    obtain ⟨hwhole, hmin, haround⟩ := around_whole hn hsig hnormal (hm ▸ hq)
    have hunit : unit = 2 ^ 52 * 2 ^ 1022 := by rw [unit_eq, ← pow_add]
    have hfour : 4 * (nearestWhole (n * 10 ^ d) * unit) =
        2 ^ 54 * nearestWhole (n * 10 ^ d) * 2 ^ 1022 := by
      rw [hunit]
      generalize (2 : Nat) ^ 1022 = scale
      ring
    rw [haround, hfour, contains_mul_right (Nat.two_pow_pos 1022), contains_iff]
    have hlog : 0 < 10 ^ d * 2 ^ n.log2 := by positivity
    have hle : 10 ^ d * 2 ^ n.log2 ≤ n * 10 ^ d := by
      rw [Nat.mul_comm n]
      exact Nat.mul_le_mul_left _ (Nat.log2_self_le hn.ne')
    have hn54 : 2 ^ 54 * n * 10 ^ d = 2 ^ 54 * (n * 10 ^ d) := Nat.mul_assoc ..
    have hspace : 2 * 2 ^ n.log2 * 10 ^ d = 2 * (10 ^ d * 2 ^ n.log2) := by ring
    have hhalf : 2 ^ n.log2 * 10 ^ d = 10 ^ d * 2 ^ n.log2 := Nat.mul_comm ..
    simp only [Nat.sub_mul, Nat.add_mul, hn54, hspace]
    split
    · -- a power of two is not rounded
      rename_i hpow
      have hn : n = 2 ^ n.log2 := by
        rw [hpow] at hwhole
        omega
      have hr := nearestWhole_two_pow_mul_ten_pow hd n.log2
      rw [← hn] at hr
      rw [hr, hhalf]
      omega
    · rename_i hpow
      obtain ⟨hup, hdown⟩ := nearestWhole_ne_half (d := d) hwhole (by omega)
      rw [hspace]
      omega

/-- Rounding leaves a whole number alone exactly where it survives. -/
theorem roundPlaces_eq_iff (hx : parts x = .finite negative (n * unit)) (hd : d ≤ 22) :
    roundPlaces x d = x ↔ Survives n d := by
  rw [roundPlaces_whole hx hd, Survives]
  obtain ⟨m, hm, hq, rfl⟩ := exists_ofBits_of_parts hx
  split
  · rename_i h
    rw [nearest, ofBits_inj (nearestBits_le ..) hm.le, nearestBits_eq_iff hm (by positivity), hq,
      contains_nearestWhole_iff hq hd]
    exact (and_iff_right h).symm
  · rename_i h
    refine iff_of_false (fun heq => ?_) (fun hs => h hs.1)
    rw [← heq, parts_infinity] at hx
    cases hx

theorem isNaN_roundPlaces (hx : parts x = .finite negative (n * unit)) (hd : d ≤ 22) :
    (roundPlaces x d).isNaN = false := by
  rw [roundPlaces_whole hx hd]
  split
  · exact isNaN_ofBits (nearestBits_le ..)
  · exact isNaN_ofBits le_rfl

end

end Reckoner.Double
