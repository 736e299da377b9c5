import Reckoner.Decimal.Shortest
import Reckoner.Proofs.Double.Packing

/-!
# The nearest double

A double is its sign and the bits below it (`ofBits_split`), and every value that is no number is
the same one (`eq_nan_of_isNaN`). Rounding gives back the double that a quotient lies around:

* `roundDiv_eq`: what is within half a divisor of a quotient is the rounded quotient;
* `nearestBits_eq_iff`: a quotient is rounded to a double just if it lies in the interval around it.
-/

namespace Reckoner.Double

open Float.Model

/-! ## Bits -/

theorem ofBits_toBits (x : Float) : Float.ofBits x.toBits = x :=
  congrArg Float.ofModel (pack_unpack x.toModel)

theorem signBit_eq : signBit = 2 ^ 63 := by decide

/-- The sign and the bits below it are all of a double. -/
theorem ofBits_split (x : Float) :
    ofBits (decide (signBit ≤ x.toBits.toNat)) (x.toBits.toNat % signBit) = x := by
  have hlt : x.toBits.toNat < 2 ^ 64 := x.toBits.toNat_lt
  have hsplit : (if signBit ≤ x.toBits.toNat then signBit + x.toBits.toNat % signBit
      else x.toBits.toNat % signBit) = x.toBits.toNat := by
    rw [signBit_eq]
    split <;> omega
  simp only [ofBits, decide_eq_true_eq, hsplit, UInt64.ofNat_toNat, ofBits_toBits]

theorem exists_ofBits_of_parts {x : Float} {negative : Bool} {quanta : Nat}
    (h : parts x = .finite negative quanta) :
    ∃ m < infinityBits, quantaOfBits m = quanta ∧ ofBits negative m = x := by
  simp only [parts] at h
  split at h
  · cases h
  · split at h
    · cases h
    · cases h
      exact ⟨_, by omega, rfl, ofBits_split x⟩

theorem infinity_of_parts {x : Float} {negative : Bool} (h : parts x = .infinite negative) :
    infinity negative = x := by
  simp only [parts] at h
  split at h
  · cases h
  · split at h
    · rename_i hm
      cases h
      rw [infinity, ← hm, ofBits_split]
    · cases h

theorem unpack_of_isNaN {x : Float} (h : x.isNaN = true) : x.toModel.unpack = .notANumber := by
  change x.toModel.unpack.isNaN = true at h
  cases hx : x.toModel.unpack with
  | notANumber => rfl
  | _ => simp [hx, UnpackedFloat.isNaN] at h

/-- There is one value that is not a number. -/
theorem eq_nan_of_isNaN {x : Float} (h : x.isNaN = true) : x = nan := by
  have hx : Float.ofModel (Float.Model.pack x.toModel.unpack) = x :=
    congrArg Float.ofModel (pack_unpack x.toModel)
  rw [← hx, unpack_of_isNaN h]
  rfl

theorem parts_ne_nan {x : Float} (h : x.isNaN = false) : parts x ≠ .nan := by
  intro hn
  change x.toModel.unpack.isNaN = false at h
  rw [unpack_of_parts_nan hn] at h
  cases h

/-! ## Rounding -/

/-- A whole number within half a divisor of a quotient is the rounded one; exactly half way it has
to be even. -/
theorem roundDiv_eq {num den n : Nat} (low : 2 * (den * n) ≤ 2 * num + den)
    (high : 2 * num ≤ 2 * (den * n) + den)
    (tie : n % 2 = 0 ∨ 2 * (den * n) < 2 * num + den ∧ 2 * num < 2 * (den * n) + den)
    (h : 0 < den) :
    roundDiv num den = n := by
  have split := Nat.div_add_mod num den
  have bound := Nat.mod_lt num h
  have next : den * (num / den + 1) = den * (num / den) + den := Nat.mul_succ ..
  simp only [roundDiv]
  generalize num / den = k at *
  generalize num % den = r at *
  have hk : n = k ∨ n = k + 1 := by
    rcases Nat.lt_or_ge n k with hlt | hge
    · have := Nat.mul_le_mul_left den (show n + 1 ≤ k from hlt)
      rw [Nat.mul_succ] at this
      omega
    · rcases Nat.lt_or_ge (k + 1) n with hgt | hle
      · have := Nat.mul_le_mul_left den (show k + 1 + 1 ≤ n from hgt)
        rw [Nat.mul_succ] at this
        omega
      · omega
  rcases hk with rfl | rfl
  · split
    · rfl
    · split <;> omega
  · split
    · omega
    · split <;> omega

section
variable {num den : Nat}

theorem roundDiv_le {n : Nat} (hden : 0 < den) (h : num ≤ n * den) : roundDiv num den ≤ n := by
  have hbounds := (roundDiv_bounds num hden).2
  by_contra hlt
  have := Nat.mul_le_mul_left den (show n + 1 ≤ roundDiv num den by omega)
  rw [Nat.mul_succ, Nat.mul_comm den n] at this
  omega

theorem le_roundDiv {n : Nat} (hden : 0 < den) (h : n * den ≤ num) : n ≤ roundDiv num den := by
  have hbounds := (roundDiv_bounds num hden).1
  by_contra hlt
  have := Nat.mul_le_mul_left den (show roundDiv num den + 1 ≤ n by omega)
  rw [Nat.mul_succ, Nat.mul_comm den n] at this
  omega

theorem roundDiv_mul_right {c : Nat} (hc : 0 < c) :
    roundDiv (num * c) (den * c) = roundDiv num den := by
  have hlt : ∀ a b : Nat, a * c < b * c ↔ a < b := fun a b => Nat.mul_lt_mul_right hc
  simp only [roundDiv, Nat.mul_div_mul_right _ _ hc, Nat.mul_mod_mul_right, ← Nat.mul_assoc, hlt]

theorem roundDiv_mul_self {c : Nat} (n : Nat) (hc : 0 < c) : roundDiv (n * c) c = n := by
  have h := @roundDiv_mul_right n 1 c hc
  rwa [Nat.one_mul, roundDiv_one] at h

theorem nearestBits_mul_right {c : Nat} (hc : 0 < c) :
    nearestBits (num * c) (den * c) = nearestBits num den := by
  simp only [nearestBits, Nat.mul_div_mul_right _ _ hc, Nat.shiftLeft_eq, Nat.mul_right_comm den c,
    roundDiv_mul_right hc]

theorem nearest_mul_right {c : Nat} (negative : Bool) (hc : 0 < c) :
    nearest negative (num * c) (den * c) = nearest negative num den := by
  rw [nearest, nearestBits_mul_right hc, nearest]

theorem nearestBits_zero (den : Nat) : nearestBits 0 den = 0 := by
  have : Nat.log2 0 = 0 := by decide
  simp [nearestBits, roundDiv, this]

theorem roundDiv_strict (hden : 0 < den) (h : roundDiv num den % 2 = 1) :
    2 * num < 2 * (den * roundDiv num den) + den ∧ 2 * (den * roundDiv num den) < 2 * num + den := by
  have split := Nat.div_add_mod num den
  have bound := Nat.mod_lt num hden
  have next : den * (num / den + 1) = den * (num / den) + den := Nat.mul_succ ..
  revert h
  simp only [roundDiv]
  split
  · omega
  · split
    · omega
    · intro h
      omega

end

theorem exists_significand (m : Nat) :
    ∃ s sig, m = s * 2 ^ 52 + sig ∧ quantaOfBits m = sig * 2 ^ s ∧ sig < 2 ^ 53 ∧
      (0 < s → 2 ^ 52 ≤ sig) := by
  refine ⟨m / 2 ^ 52 - 1, m - (m / 2 ^ 52 - 1) * 2 ^ 52, by omega, ?_, by omega, by omega⟩
  simp only [quantaOfBits, Nat.shiftRight_eq_div_pow, Nat.shiftLeft_eq]

section
variable {s sig num den : Nat}

theorem log2_mul_two_pow {n : Nat} (h : 0 < n) (e : Nat) : (n * 2 ^ e).log2 = n.log2 + e := by
  have hP := Nat.two_pow_pos e
  rw [Nat.log2_eq_iff (by positivity), Nat.pow_add, Nat.add_right_comm, Nat.pow_add]
  exact ⟨Nat.mul_le_mul_right _ (Nat.log2_self_le h.ne'),
    Nat.mul_lt_mul_of_pos_right Nat.lt_log2_self hP⟩

theorem log2_significand (hsig : sig < 2 ^ 53) (hnormal : 0 < s → 2 ^ 52 ≤ sig) :
    (sig * 2 ^ s).log2 - 52 = s := by
  rcases Nat.eq_zero_or_pos sig with rfl | hpos
  · obtain rfl : s = 0 := by omega
    rfl
  · have hlt : sig.log2 < 53 := (Nat.log2_lt hpos.ne').2 hsig
    have hle : 0 < s → 52 ≤ sig.log2 := fun hs => (Nat.le_log2 hpos.ne').2 (hnormal hs)
    rw [log2_mul_two_pow hpos]
    omega

open Decimal in
theorem around_significand (hsig : sig < 2 ^ 53) (hnormal : 0 < s → 2 ^ 52 ≤ sig) :
    Interval.around (sig * 2 ^ s) =
      { low := 4 * (sig * 2 ^ s) - if sig = 2 ^ 52 ∧ 0 < s then 2 ^ s else 2 * 2 ^ s
        high := 4 * (sig * 2 ^ s) + 2 * 2 ^ s
        closed := sig % 2 == 0 } := by
  have hP := Nat.two_pow_pos s
  have hpow : sig * 2 ^ s = 2 ^ (52 + s) ↔ sig = 2 ^ 52 := by
    rw [Nat.pow_add, Nat.mul_left_inj (by omega)]
  simp only [Interval.around, log2_significand hsig hnormal, Nat.shiftLeft_eq, Nat.one_mul,
    Nat.shiftRight_eq_div_pow, Nat.mul_div_cancel _ hP, hpow]

theorem quantaOfBits_significand (hsig : sig ≤ 2 ^ 53) (hnormal : 0 < s → 2 ^ 52 ≤ sig) :
    quantaOfBits (s * 2 ^ 52 + sig) = sig * 2 ^ s := by
  obtain ⟨s', sig', hbits, hq, hsig', hnormal'⟩ := exists_significand (s * 2 ^ 52 + sig)
  rw [hq]
  rcases hsig.lt_or_eq with hlt | rfl
  · obtain rfl : s' = s := by omega
    obtain rfl : sig' = sig := by omega
    rfl
  · obtain rfl : s' = s + 1 := by omega
    obtain rfl : sig' = 2 ^ 52 := by omega
    rw [Nat.pow_succ']
    ring

theorem lt_mul_two_pow_iff (hsig : sig ≤ 2 ^ 53) (hnormal : 0 < s → 2 ^ 52 ≤ sig) (top : Nat) :
    s * 2 ^ 52 + sig < (top + 2) * 2 ^ 52 ↔ sig * 2 ^ s < 2 ^ 53 * 2 ^ top := by
  rcases Nat.lt_trichotomy s top with hlt | rfl | hgt
  · refine iff_of_true (by omega) (Nat.lt_of_le_of_lt (Nat.mul_le_mul_right _ hsig) ?_)
    exact Nat.mul_lt_mul_of_pos_left (Nat.pow_lt_pow_right (by norm_num) hlt) (by norm_num)
  · rw [Nat.mul_lt_mul_right (Nat.two_pow_pos s)]
    omega
  · have hsig := hnormal (by omega)
    refine iff_of_false (by omega) (Nat.not_lt.2 ?_)
    calc 2 ^ 53 * 2 ^ top = 2 ^ 52 * 2 ^ (top + 1) := by ring
      _ ≤ sig * 2 ^ s := Nat.mul_le_mul hsig (Nat.pow_le_pow_right (by norm_num) hgt)

theorem lt_infinityBits_iff (hsig : sig ≤ 2 ^ 53) (hnormal : 0 < s → 2 ^ 52 ≤ sig) :
    s * 2 ^ 52 + sig < infinityBits ↔ sig * 2 ^ s < 2 ^ 53 * 2 ^ 2045 := by
  have hinf : infinityBits = (2045 + 2) * 2 ^ 52 := by decide
  rw [hinf]
  exact lt_mul_two_pow_iff hsig hnormal 2045

theorem nearestBits_of_log2 (h : (num / den).log2 - 52 = s) :
    nearestBits num den = min (s * 2 ^ 52 + roundDiv num (den * 2 ^ s)) infinityBits := by
  simp only [nearestBits, h, Nat.shiftLeft_eq]

theorem nearestBits_of_shift (hm : s * 2 ^ 52 + sig < infinityBits)
    (hshift : (num / den).log2 - 52 = s) (hround : roundDiv num (den * 2 ^ s) = sig) :
    nearestBits num den = s * 2 ^ 52 + sig := by
  rw [nearestBits_of_log2 hshift, hround]
  omega

/-- A double has a whole number of quanta, so none is rounded away. -/
theorem ofQuanta_eq {x : Float} {negative : Bool} {quanta : Nat}
    (h : parts x = .finite negative quanta) : ofQuanta negative quanta = x := by
  obtain ⟨m, hm, rfl, rfl⟩ := exists_ofBits_of_parts h
  obtain ⟨s, sig, rfl, hq, hsig, hnormal⟩ := exists_significand m
  rw [ofQuanta, nearest, hq, nearestBits_of_shift hm]
  · rw [Nat.div_one, log2_significand hsig hnormal]
  · rw [Nat.one_mul, roundDiv_mul_self _ (Nat.two_pow_pos s)]

/-- The floor of a quotient tells how far the significand is shifted. -/
theorem log2_div (hden : 0 < den) (low : 0 < s → 2 ^ (52 + s) * den ≤ num)
    (high : num < 2 ^ (53 + s) * den) : (num / den).log2 - 52 = s := by
  have hlt : num / den < 2 ^ (53 + s) := Nat.div_lt_of_lt_mul (by rwa [Nat.mul_comm])
  rcases Nat.eq_zero_or_pos s with rfl | hs
  · rcases Nat.eq_zero_or_pos (num / den) with h0 | h0
    · simp [h0]
    · have : (num / den).log2 < 53 := (Nat.log2_lt (by omega)).2 hlt
      omega
  · have hle : 2 ^ (52 + s) ≤ num / den := (Nat.le_div_iff_mul_le hden).2 (low hs)
    have : (num / den).log2 = 52 + s :=
      (Nat.log2_eq_iff (by have := Nat.two_pow_pos (52 + s); omega)).2
        ⟨hle, by rwa [Nat.add_right_comm]⟩
    omega

theorem bounds_of_log2 (hden : 0 < den) (h : (num / den).log2 - 52 = s) :
    (0 < s → 2 ^ (52 + s) * den ≤ num) ∧ num < 2 ^ (53 + s) * den := by
  constructor
  · intro hs
    have hne : num / den ≠ 0 := fun h0 => by
      rw [h0] at h
      have : Nat.log2 0 = 0 := by decide
      omega
    exact (Nat.le_div_iff_mul_le hden).1 ((Nat.le_log2 hne).1 (by omega))
  · refine (Nat.div_lt_iff_lt_mul hden).1 (Nat.lt_log2_self.trans_le ?_)
    exact Nat.pow_le_pow_right (by norm_num) (by omega)

theorem roundDiv_significand (hden : 0 < den) (low : 0 < s → 2 ^ (52 + s) * den ≤ num)
    (high : num < 2 ^ (53 + s) * den) :
    roundDiv num (den * 2 ^ s) ≤ 2 ^ 53 ∧ (0 < s → 2 ^ 52 ≤ roundDiv num (den * 2 ^ s)) := by
  have hD : 0 < den * 2 ^ s := Nat.mul_pos hden (Nat.two_pow_pos s)
  have hscale : ∀ c, 2 ^ (c + s) * den = 2 ^ c * (den * 2 ^ s) := fun c => by
    rw [Nat.pow_add, Nat.mul_assoc, Nat.mul_comm (2 ^ s)]
  exact ⟨roundDiv_le hD (hscale 53 ▸ high.le), fun hs => le_roundDiv hD (hscale 52 ▸ low hs)⟩

open Decimal in
theorem contains_iff {i : Interval} :
    i.contains num den = true ↔ i.low * den ≤ num ∧ num ≤ i.high * den ∧
      (i.closed = true ∨ i.low * den < num ∧ num < i.high * den) := by
  cases hclosed : i.closed
  · simp only [Interval.contains, hclosed, Bool.false_eq_true, if_false, Bool.and_eq_true,
      decide_eq_true_eq, false_or]
    omega
  · simp [Interval.contains, hclosed]

open Decimal in
/-- All that lies in the interval around a double is nearest to it. -/
theorem nearestBits_of_contains {m : Nat} (hm : m < infinityBits) (hden : 0 < den)
    (h : (Interval.around (quantaOfBits m)).contains (4 * num) den = true) :
    nearestBits num den = m := by
  obtain ⟨s, sig, rfl, hq, hsig, hnormal⟩ := exists_significand m
  rw [hq, around_significand hsig hnormal, contains_iff] at h
  obtain ⟨hlow, hhigh, htie⟩ := h
  -- the ends of the interval in units of the spacing between doubles
  have hquanta : 4 * (sig * 2 ^ s) * den = 4 * (den * 2 ^ s * sig) := by ring
  have hspace : 2 * 2 ^ s * den = 2 * (den * 2 ^ s) := by ring
  have hhalf : 2 ^ s * den = den * 2 ^ s := by ring
  have h52 : 2 ^ (52 + s) * den = 2 ^ 52 * (den * 2 ^ s) := by ring
  have h53 : 2 ^ (53 + s) * den = 2 ^ 53 * (den * 2 ^ s) := by ring
  have hD : 0 < den * 2 ^ s := Nat.mul_pos hden (Nat.two_pow_pos s)
  have hsigD : den * 2 ^ s * sig ≤ den * 2 ^ s * (2 ^ 53 - 1) := Nat.mul_le_mul_left _ (by omega)
  simp only [Nat.sub_mul, Nat.add_mul, hquanta, hspace] at hlow hhigh htie
  by_cases hbelow : 0 < s ∧ num < 2 ^ (52 + s) * den
  · -- just below a power of two the spacing is half as large
    obtain ⟨hs, hnum⟩ := hbelow
    have hsig : sig = 2 ^ 52 := by
      by_contra hne
      have := Nat.mul_le_mul_left (den * 2 ^ s) (show 2 ^ 52 + 1 ≤ sig by have := hnormal hs; omega)
      simp only [hne, false_and, if_false, hspace] at hlow
      omega
    obtain ⟨t, rfl⟩ : ∃ t, s = t + 1 := ⟨s - 1, by omega⟩
    have hE : den * 2 ^ (t + 1) = 2 * (den * 2 ^ t) := by ring
    have h52 : 2 ^ (52 + t) * den = 2 ^ 52 * (den * 2 ^ t) := by ring
    have h53 : 2 ^ (53 + t) * den = 2 ^ 53 * (den * 2 ^ t) := by ring
    subst hsig
    simp only [hs, true_and, if_true, hhalf] at hlow
    have hshift : (num / den).log2 - 52 = t := log2_div hden (by omega) (by omega)
    have hround : roundDiv num (den * 2 ^ t) = 2 ^ 53 :=
      roundDiv_eq (by omega) (by omega) (.inl (by norm_num)) (by omega)
    have hbits : (t + 1) * 2 ^ 52 + 2 ^ 52 = t * 2 ^ 52 + 2 ^ 53 := by ring
    rw [hbits] at hm ⊢
    exact nearestBits_of_shift hm hshift hround
  · have hwide : (if sig = 2 ^ 52 ∧ 0 < s then 2 ^ s else 2 * 2 ^ s) * den ≤ 2 * (den * 2 ^ s) := by
      split <;> omega
    refine nearestBits_of_shift hm (log2_div hden (by omega) (by omega)) ?_
    exact roundDiv_eq (by omega) (by omega) (by rw [beq_iff_eq] at htie; omega) hD

open Decimal in
/-- Only what lies in the interval around a double is nearest to it. -/
theorem contains_of_nearestBits {m : Nat} (hm : m < infinityBits) (hden : 0 < den)
    (h : nearestBits num den = m) :
    (Interval.around (quantaOfBits m)).contains (4 * num) den = true := by
  generalize hs : (num / den).log2 - 52 = s
  obtain ⟨hlow, hhigh⟩ := bounds_of_log2 hden hs
  obtain ⟨hle, hnormal⟩ := roundDiv_significand hden hlow hhigh
  have hD : 0 < den * 2 ^ s := Nat.mul_pos hden (Nat.two_pow_pos s)
  obtain ⟨hup, hdown⟩ := roundDiv_bounds num hD
  have hodd := @roundDiv_strict num _ hD
  rw [nearestBits_of_log2 hs] at h
  generalize roundDiv num (den * 2 ^ s) = sig at *
  obtain rfl : m = s * 2 ^ 52 + sig := by omega
  have hquanta : 4 * (sig * 2 ^ s) * den = 4 * (den * 2 ^ s * sig) := by ring
  have hspace : 2 * 2 ^ s * den = 2 * (den * 2 ^ s) := by ring
  have hhalf : 2 ^ s * den = den * 2 ^ s := by ring
  rw [quantaOfBits_significand hle hnormal, contains_iff]
  rcases hle.lt_or_eq with hlt | htop
  · rw [around_significand hlt hnormal]
    simp only [Nat.sub_mul, Nat.add_mul, hquanta, hspace, beq_iff_eq]
    split
    · -- a power of two lies no further up than the quotient
      rename_i hpow
      obtain ⟨hsig, hs⟩ := hpow
      have h52 : 2 ^ (52 + s) * den = den * 2 ^ s * sig := by rw [hsig]; ring
      have := hlow hs
      rw [hhalf]
      omega
    · have hodd' : sig % 2 = 1 → den * 2 ^ s ≤ den * 2 ^ s * sig := fun h =>
        Nat.le_mul_of_pos_right _ (by omega)
      rw [hspace]
      omega
  · -- rounded up to the next power of two, from below
    have hnext : sig * 2 ^ s = 2 ^ 52 * 2 ^ (s + 1) := by rw [htop]; ring
    have hpow : 2 ^ (s + 1) * den = 2 * (den * 2 ^ s) := by ring
    have hpow' : 2 * 2 ^ (s + 1) * den = 4 * (den * 2 ^ s) := by ring
    rw [hnext] at hquanta ⊢
    rw [around_significand (by norm_num) (fun _ => le_rfl), if_pos ⟨rfl, Nat.succ_pos s⟩]
    simp only [Nat.sub_mul, Nat.add_mul, hquanta, hpow, hpow', beq_iff_eq]
    omega

open Decimal in
theorem nearestBits_eq_iff {m : Nat} (hm : m < infinityBits) (hden : 0 < den) :
    nearestBits num den = m ↔
      (Interval.around (quantaOfBits m)).contains (4 * num) den = true :=
  ⟨contains_of_nearestBits hm hden, nearestBits_of_contains hm hden⟩

end

end Reckoner.Double
