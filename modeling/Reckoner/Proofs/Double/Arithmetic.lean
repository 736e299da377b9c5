import Reckoner.Proofs.Double.Nearest

/-!
# Products and quotients

The arithmetic of doubles is that of their quanta, rounded once. A packed double is read off its
sign and the bits below it (`ofModel_pack`, `unpack_ofBits`), and rounding a quotient by its whole
part and two more bits finds the nearest double to the quotient (`pack_roundWithAccuracy`). So

* `mul_eq_nearest`: a product is the double nearest to the exact product;
* `div_eq_nearest`: a quotient is the double nearest to the exact quotient.

A result can be finite only where the first operand is (`isFinite_of_mul`, `isFinite_of_div`).
-/

namespace Reckoner.Double

open Float.Model Float.Model.UnpackedFloat

/-! ## Bits -/

/-- The sign of a double. -/
def signOf (negative : Bool) : UnpackedFloat.Sign := if negative then .negative else .positive

theorem infinityBits_eq : infinityBits = 2047 * 2 ^ 52 := by decide

theorem unit_eq : unit = 2 ^ 1074 :=
  -- for every exponent, lest the power be evaluated
  have h : ∀ n, 1 <<< n = 2 ^ n := Nat.one_shiftLeft
  h 1074

theorem unit_pos : 0 < unit := (pow_pos two_pos 1074).trans_eq unit_eq.symm

section
variable {negative : Bool} {m : Nat}

theorem packComponents_signOf (hm : m ≤ infinityBits) :
    packComponents .binary64 (signOf negative) (BitVec.ofNat 11 (m / 2 ^ 52)) (BitVec.ofNat 52 m) =
      BitVec.ofNat 64 (if negative then signBit + m else m) := by
  rw [infinityBits_eq] at hm
  have hsign : (signOf negative).toBitVec.toNat = if negative then 1 else 0 := by
    cases negative <;> rfl
  apply BitVec.eq_of_toNat_eq
  change (((signOf negative).toBitVec ++ BitVec.ofNat 11 (m / 2 ^ 52)) ++ BitVec.ofNat 52 m).toNat =
    (BitVec.ofNat 64 _).toNat
  rw [toNat_append, toNat_append, hsign, BitVec.toNat_ofNat, BitVec.toNat_ofNat, BitVec.toNat_ofNat,
    signBit_eq]
  cases negative
  · rw [if_neg Bool.false_ne_true, if_neg Bool.false_ne_true]
    omega
  · rw [if_pos rfl, if_pos rfl]
    omega

theorem ofModel_pack {u : UnpackedFloat} (hm : m ≤ infinityBits)
    (hu : UnpackedFloat.pack .binary64 u = packComponents .binary64 (signOf negative)
      (BitVec.ofNat 11 (m / 2 ^ 52)) (BitVec.ofNat 52 m)) :
    Float.ofModel (Float.Model.pack u) = ofBits negative m := by
  refine congrArg (Float.ofModel ·) ?_
  have hbits : (UInt64.ofNat (if negative then signBit + m else m)).toBitVec =
      BitVec.ofNat 64 (if negative then signBit + m else m) := rfl
  rw [Float.Model.ofBits, hbits, ← packComponents_signOf hm, ← hu]
  exact (pack_unpack (Float.Model.pack u)).symm

theorem pack_unpack_bits (hm : m ≤ infinityBits) :
    UnpackedFloat.pack .binary64 (UnpackedFloat.unpack .binary64
      (UInt64.ofNat (if negative then signBit + m else m)).toBitVec) =
        BitVec.ofNat 64 (if negative then signBit + m else m) := by
  change UnpackedFloat.pack .binary64 (UnpackedFloat.unpack .binary64 (BitVec.ofNat 64 _)) = _
  rw [← packComponents_signOf hm]
  refine pack_unpack_packComponents fun he => ?_
  have he := congrArg BitVec.toNat he
  apply BitVec.eq_of_toNat_eq
  rw [infinityBits_eq] at hm
  change m / 2 ^ 52 % 2 ^ 11 = 2047 at he
  change m % 2 ^ 52 = 0
  omega

theorem unpack_ofBits (hm : m ≤ infinityBits) :
    (ofBits negative m).toModel.unpack = UnpackedFloat.unpack .binary64
      (packComponents .binary64 (signOf negative) (BitVec.ofNat 11 (m / 2 ^ 52))
        (BitVec.ofNat 52 m)) := by
  rw [packComponents_signOf hm]
  exact congrArg (UnpackedFloat.unpack .binary64) (pack_unpack_bits hm)

theorem toNat_toBits_ofBits (hm : m ≤ infinityBits) :
    (ofBits negative m).toBits.toNat = if negative then signBit + m else m := by
  have hbits := congrArg BitVec.toNat (@pack_unpack_bits negative m hm)
  refine (hbits.trans (BitVec.toNat_ofNat _ 64)).trans ?_
  rw [infinityBits_eq] at hm
  rw [signBit_eq]
  cases negative
  · rw [if_neg Bool.false_ne_true]
    omega
  · rw [if_pos rfl]
    omega

theorem ofBits_inj {m' : Nat} (hm : m ≤ infinityBits) (hm' : m' ≤ infinityBits) :
    ofBits negative m = ofBits negative m' ↔ m = m' := by
  refine ⟨fun h => ?_, congrArg _⟩
  have h := congrArg (UInt64.toNat ∘ Float.toBits) h
  simp only [Function.comp_apply, toNat_toBits_ofBits hm, toNat_toBits_ofBits hm'] at h
  split at h <;> omega

theorem parts_ofBits (hm : m < infinityBits) :
    parts (ofBits negative m) = .finite negative (quantaOfBits m) := by
  have hinf : ¬ infinityBits < m := by omega
  have hne : m ≠ infinityBits := by omega
  have hlt : m < signBit := by
    rw [infinityBits_eq] at hm
    rw [signBit_eq]
    omega
  simp only [parts, toNat_toBits_ofBits hm.le]
  cases negative
  · rw [if_neg Bool.false_ne_true, Nat.mod_eq_of_lt hlt, if_neg hinf, if_neg hne,
      decide_eq_false (by omega)]
  · rw [if_pos rfl, Nat.add_mod_left, Nat.mod_eq_of_lt hlt, if_neg hinf, if_neg hne,
      decide_eq_true (by omega)]

theorem parts_infinity : parts (infinity negative) = .infinite negative := by
  cases negative <;> rfl

theorem neg_ofBits (hm : m ≤ infinityBits) : -ofBits false m = ofBits true m := by
  have hself : Float.ofModel (Float.Model.pack (ofBits true m).toModel.unpack) = ofBits true m :=
    congrArg Float.ofModel (pack_unpack _)
  rw [← hself, unpack_ofBits hm]
  refine congrArg (fun u => Float.ofModel (Float.Model.pack u)) ?_
  rw [unpack_ofBits hm]
  exact unpack_packComponents_neg.symm

end

/-! ## Significands -/

section
variable {negative : Bool} {s sig : Nat}

theorem ofModel_pack_finite (hsig : sig < 2 ^ 53) (hnormal : 0 < s → 2 ^ 52 ≤ sig)
    (hpos : 0 < sig) :
    Float.ofModel (Float.Model.pack (.finite (signOf negative) sig (s - 1074) hpos)) =
      ofBits negative (min (s * 2 ^ 52 + sig) infinityBits) := by
  refine ofModel_pack (Nat.min_le_right ..) ?_
  have hbias : ((s : Int) - 1074 + (Format.binary64.exponentBias : Nat) + (52 : Nat)).toNat =
      s + 1 := by
    have : Format.binary64.exponentBias = 1023 := rfl
    omega
  have hbits : Format.binary64.mantissaBits = 53 := rfl
  rw [infinityBits_eq]
  simp only [UnpackedFloat.pack, hbias, hbits]
  split
  · -- the exponent of infinity
    have hm : min (s * 2 ^ 52 + sig) (2047 * 2 ^ 52) = 2047 * 2 ^ 52 := by omega
    rw [hm]
    rfl
  · have hm : min (s * 2 ^ 52 + sig) (2047 * 2 ^ 52) = s * 2 ^ 52 + sig := by omega
    rw [hm]
    split
    · rename_i hlog
      have hsig : 2 ^ 52 ≤ sig := (Nat.le_log2 hpos.ne').1 (by omega)
      have hexp : (s * 2 ^ 52 + sig) / 2 ^ 52 = s + 1 := by omega
      have hmant : BitVec.ofNat 52 (s * 2 ^ 52 + sig) = BitVec.ofNat 52 sig := by
        apply BitVec.eq_of_toNat_eq
        rw [BitVec.toNat_ofNat, BitVec.toNat_ofNat]
        omega
      rw [hexp, hmant]
    · rename_i hlog
      have hlt : sig < 2 ^ 52 := by
        by_contra hge
        have := (Nat.log2_eq_iff hpos.ne').2 ⟨not_lt.1 hge, hsig⟩
        omega
      obtain rfl : s = 0 := by omega
      have hexp : (0 * 2 ^ 52 + sig) / 2 ^ 52 = 0 := by omega
      rw [hexp, Nat.zero_mul, Nat.zero_add]

theorem unpack_ofBits_significand (hsig : sig < 2 ^ 53) (hnormal : 0 < s → 2 ^ 52 ≤ sig)
    (hpos : 0 < sig) (hm : s * 2 ^ 52 + sig < infinityBits) :
    (ofBits negative (s * 2 ^ 52 + sig)).toModel.unpack =
      .finite (signOf negative) sig (s - 1074) hpos := by
  rw [unpack_ofBits hm.le]
  rw [infinityBits_eq] at hm
  generalize hbits : s * 2 ^ 52 + sig = m at *
  have hbias : Format.binary64.exponentBias = 1023 := rfl
  have hsign : Sign.ofBitVec (signOf negative).toBitVec = signOf negative := ofBitVec_toBitVec _
  have hexp : (BitVec.ofNat 11 (m / 2 ^ 52)).toNat = m / 2 ^ 52 := by
    rw [BitVec.toNat_ofNat]
    omega
  have hmax : ¬ BitVec.ofNat 11 (m / 2 ^ 52) = -1#11 := fun h => by
    have h := congrArg BitVec.toNat h
    rw [hexp] at h
    change m / 2 ^ 52 = 2047 at h
    omega
  simp only [UnpackedFloat.unpack, unpackExponent_packComponents, unpackMantissa_packComponents,
    unpackSign_packComponents, hsign, hexp, hbias]
  rw [if_neg hmax]
  split
  · -- a subnormal double: its significand is the whole of the bits
    rename_i hzero
    have hzero := congrArg BitVec.toNat hzero
    rw [hexp] at hzero
    change m / 2 ^ 52 = 0 at hzero
    have hmant : (BitVec.ofNat 52 m).toNat = sig := by
      rw [BitVec.toNat_ofNat]
      omega
    have hne : ¬ BitVec.ofNat 52 m = 0#52 := fun h => by
      have h := congrArg BitVec.toNat h
      rw [hmant] at h
      exact hpos.ne' h
    rw [dif_neg hne, UnpackedFloat.finite.injEq]
    exact ⟨rfl, hmant, by omega⟩
  · -- a normal one: the leading bit of its significand is not among the bits
    rename_i hzero
    have hm : m / 2 ^ 52 ≠ 0 := fun h => hzero (BitVec.eq_of_toNat_eq (hexp.trans h))
    have hmant : (1#1 ++ BitVec.ofNat 52 m).toNat = sig := by
      rw [toNat_append, BitVec.toNat_one (by norm_num), Nat.one_mul, BitVec.toNat_ofNat]
      omega
    rw [UnpackedFloat.finite.injEq]
    exact ⟨rfl, hmant, by omega⟩

theorem ofModel_pack_zero :
    Float.ofModel (Float.Model.pack (.zero (signOf negative))) = ofBits negative 0 :=
  ofModel_pack (Nat.zero_le _) rfl

theorem unpack_ofBits_zero : (ofBits negative 0).toModel.unpack = .zero (signOf negative) := by
  cases negative <;> rfl

end

/-! ## Rounding -/

/-- A quotient with the two bits after its whole part that rounding looks at. -/
def extended (num den : Nat) : ExtendedMantissa :=
  ⟨num / den, decide (den ≤ 2 * (num % den)), decide (num % den ≠ 0 ∧ 2 * (num % den) ≠ den)⟩

section
variable {num den : Nat}

theorem shiftRightOne_extended (h : 0 < den) :
    (extended num den).shiftRightOne = extended num (den * 2) := by
  have hmod : num % (den * 2) = num % den + den * (num / den % 2) := Nat.mod_mul
  have hlt := Nat.mod_lt num h
  have hbit : den * (num / den % 2) = if num / den % 2 = 0 then 0 else den := by
    rcases Nat.mod_two_eq_zero_or_one (num / den) with hb | hb <;> rw [hb] <;> simp
  simp only [extended, ExtendedMantissa.shiftRightOne, Nat.div_div_eq_div_mul, hmod, hbit]
  congr 1
  · rw [Bool.eq_iff_iff, bne_iff_ne, decide_eq_true_eq]
    split <;> omega
  · rw [← Bool.decide_or, decide_eq_decide]
    split <;> omega

theorem extended_shiftRight (h : 0 < den) (n : Nat) :
    extended num den >>> n = extended num (den * 2 ^ n) := by
  change n.repeat ExtendedMantissa.shiftRightOne (extended num den) = _
  induction n with
  | zero => rw [Nat.pow_zero, Nat.mul_one]; rfl
  | succ n ih =>
    rw [Nat.repeat, ih, shiftRightOne_extended (Nat.mul_pos h (Nat.two_pow_pos n)), Nat.pow_succ,
      Nat.mul_assoc]

theorem ofMantissaAndAccuracy_exact (num : Nat) :
    ExtendedMantissa.ofMantissaAndAccuracy (num / 1) .exact = extended num 1 := by
  simp [ExtendedMantissa.ofMantissaAndAccuracy, extended, Nat.mod_one]

theorem ofMantissaAndAccuracy_fraction (h : 0 < den) :
    ExtendedMantissa.ofMantissaAndAccuracy (num / den) (accuracyOfFraction (num % den) den) =
      extended num den := by
  have hlt := Nat.mod_lt num h
  simp only [accuracyOfFraction, extended]
  split
  · rename_i hr
    simp [ExtendedMantissa.ofMantissaAndAccuracy, hr, h.ne']
  · rename_i hr
    rcases Nat.lt_trichotomy (2 * (num % den)) den with hlow | htie | hhigh
    · simp [ExtendedMantissa.ofMantissaAndAccuracy, Nat.compare_eq_lt.2 hlow, hlow, hlow.ne, hr]
    · simp [ExtendedMantissa.ofMantissaAndAccuracy, htie]
    · simp [ExtendedMantissa.ofMantissaAndAccuracy, Nat.compare_eq_gt.2 hhigh, hhigh.le, hhigh.ne',
        hr]

theorem roundedMantissa_extended (h : 0 < den) :
    (extended num den).roundedMantissa = roundDiv num den := by
  have hlt := Nat.mod_lt num h
  simp only [ExtendedMantissa.roundedMantissa, extended, roundDiv]
  rcases Nat.lt_trichotomy (2 * (num % den)) den with hlow | htie | hhigh
  · have hround : ¬ den ≤ 2 * (num % den) := by omega
    rw [if_pos hlow, decide_eq_false hround]
    cases decide (num % den ≠ 0 ∧ 2 * (num % den) ≠ den) <;> rfl
  · have hsticky : ¬ (num % den ≠ 0 ∧ 2 * (num % den) ≠ den) := by omega
    rw [decide_eq_true htie.ge, decide_eq_false hsticky, if_neg (by omega), if_neg (by omega)]
    rfl
  · have hsticky : num % den ≠ 0 ∧ 2 * (num % den) ≠ den := by omega
    rw [decide_eq_true hhigh.le, decide_eq_true hsticky, if_neg (by omega), if_pos hhigh]
    rfl

/-- Shifting down to a significand of 53 bits, or to the quantum where that is coarser. -/
theorem shiftToTargetExponent_extended {a : Accuracy} {j k t : Nat} (hden : 0 < den)
    (ha : ExtendedMantissa.ofMantissaAndAccuracy (num / den) a = extended num den)
    (h : k ≤ j ∨ 2 ^ 52 ≤ num / den) (ht : (num / den).log2 + k - (j + 52) = t) :
    shiftToTargetExponent .binary64 (num / den) ((k : Int) - j - 1074) a =
      (extended num (den * 2 ^ (t + j - k)), (t : Int) - 1074) := by
  have hbits : Format.binary64.mantissaBits = 53 := rfl
  have hmin : Format.binary64.minExponent = -1074 := rfl
  have hlog : k ≤ j ∨ 52 ≤ (num / den).log2 :=
    h.imp_right fun hle => (Nat.le_log2 (by omega)).2 hle
  have htarget : Format.binary64.targetExponent (totalExponent (num / den) ((k : Int) - j - 1074)) =
      (t : Int) - 1074 := by
    simp only [Format.targetExponent, totalExponent, hbits, hmin]
    omega
  have hshift : ((t : Int) - 1074 - ((k : Int) - j - 1074)).toNat = t + j - k := by omega
  simp only [shiftToTargetExponent, shiftToExponent, htarget, hshift, ha, extended_shiftRight hden,
    Prod.mk.injEq, true_and]
  omega

/-- A significand that was rounded up to `2 ^ 53` is shifted once more. -/
theorem roundWithAccuracy_of_shift {negative : Bool} {m r t : Nat} {e : Int} {a : Accuracy}
    {x : ExtendedMantissa}
    (hfirst : shiftToTargetExponent .binary64 m e a = (x, (t : Int) - 1074))
    (hr : x.roundedMantissa = r) (hle : r ≤ 2 ^ 53) (hnormal : 0 < t → 2 ^ 52 ≤ r) :
    Float.ofModel (Float.Model.pack (roundWithAccuracy .binary64 (signOf negative) m e a)) =
      ofBits negative (min (t * 2 ^ 52 + r) infinityBits) := by
  have hsecond := shiftToTargetExponent_extended (j := 0) (k := t) Nat.one_pos
    (ofMantissaAndAccuracy_exact r) (by rw [Nat.div_one]; omega) rfl
  rw [Nat.div_one, Int.natCast_zero, Int.sub_zero, Nat.one_mul] at hsecond
  generalize hs : r.log2 + t - (0 + 52) = s at hsecond
  -- the second shift does nothing but where rounding has carried into the 54th bit
  have hcases : s = t ∧ r < 2 ^ 53 ∨ s = t + 1 ∧ r = 2 ^ 53 := by
    rcases Nat.lt_or_ge r (2 ^ 52) with hlt | hge
    · have hlog : r.log2 ≤ 52 := by
        rcases Nat.eq_zero_or_pos r with rfl | hpos
        · decide
        · exact ((Nat.log2_lt hpos.ne').2 hlt).le
      omega
    · rcases Nat.lt_or_ge r (2 ^ 53) with hlt | hge'
      · have hlog := (Nat.log2_eq_iff (by omega)).2 ⟨hge, hlt⟩
        omega
      · obtain rfl : r = 2 ^ 53 := Nat.le_antisymm hle hge'
        rw [Nat.log2_two_pow] at hs
        omega
  have hdiv : s * 2 ^ 52 + r / 2 ^ (s + 0 - t) = t * 2 ^ 52 + r ∧ r / 2 ^ (s + 0 - t) < 2 ^ 53 ∧
      (0 < s → 2 ^ 52 ≤ r / 2 ^ (s + 0 - t)) := by
    rcases hcases with ⟨rfl, hlt⟩ | ⟨rfl, rfl⟩
    · rw [Nat.add_zero, Nat.sub_self, Nat.pow_zero, Nat.div_one]
      exact ⟨rfl, hlt, hnormal⟩
    · have hone : t + 1 + 0 - t = 1 := by omega
      rw [hone]
      omega
  obtain ⟨hbits, hsig, hnormal⟩ := hdiv
  simp only [roundWithAccuracy, hfirst, hr, hsecond, extended]
  split
  · rename_i hzero
    obtain rfl : s = 0 := by omega
    rw [← hbits, hzero]
    exact (ofModel_pack_zero).trans rfl
  · rename_i hpos
    exact (ofModel_pack_finite hsig hnormal (Nat.pos_of_ne_zero hpos)).trans (by rw [hbits])

/-- A scaled quotient has so many bits as its whole part has, and those of the scale. -/
theorem scaled_bounds {j k t : Nat} (hden : 0 < den) (hlog : k ≤ j ∨ 52 ≤ (num / den).log2)
    (ht : (num / den).log2 + k - (j + 52) = t) :
    (0 < t → 2 ^ (52 + t) * (den * 2 ^ j) ≤ num * 2 ^ k) ∧
      num * 2 ^ k < 2 ^ (53 + t) * (den * 2 ^ j) := by
  constructor
  · intro hpos
    have hne : num / den ≠ 0 := fun h0 => by
      rw [h0] at ht hlog
      have : Nat.log2 0 = 0 := by decide
      omega
    have hq : 2 ^ (num / den).log2 * den ≤ num :=
      (Nat.mul_le_mul_right den (Nat.log2_self_le hne)).trans (Nat.div_mul_le_self num den)
    calc 2 ^ (52 + t) * (den * 2 ^ j) = 2 ^ (52 + t + j) * den := by
          rw [Nat.pow_add _ (52 + t), Nat.mul_left_comm, Nat.mul_comm den]
      _ = 2 ^ (num / den).log2 * den * 2 ^ k := by
          rw [Nat.mul_right_comm, ← Nat.pow_add]
          congr 2
          omega
      _ ≤ num * 2 ^ k := Nat.mul_le_mul_right _ hq
  · have hq : num < 2 ^ ((num / den).log2 + 1) * den :=
      (Nat.div_lt_iff_lt_mul hden).1 Nat.lt_log2_self
    calc num * 2 ^ k < 2 ^ ((num / den).log2 + 1) * den * 2 ^ k :=
          Nat.mul_lt_mul_of_pos_right hq (Nat.two_pow_pos k)
      _ = 2 ^ ((num / den).log2 + 1 + k) * den := by rw [Nat.pow_add _ _ k, Nat.mul_right_comm]
      _ ≤ 2 ^ (53 + t + j) * den :=
          Nat.mul_le_mul_right _ (Nat.pow_le_pow_right (by norm_num) (by omega))
      _ = 2 ^ (53 + t) * (den * 2 ^ j) := by
          rw [Nat.pow_add _ (53 + t), Nat.mul_left_comm, Nat.mul_comm den]

/-- Rounding a quotient in units of `2 ^ (k - j)` quanta. -/
theorem pack_roundWithAccuracy {negative : Bool} {a : Accuracy} {j k : Nat} (hden : 0 < den)
    (ha : ExtendedMantissa.ofMantissaAndAccuracy (num / den) a = extended num den)
    (h : k ≤ j ∨ 2 ^ 52 ≤ num / den) :
    Float.ofModel (Float.Model.pack (roundWithAccuracy .binary64 (signOf negative) (num / den)
      ((k : Int) - j - 1074) a)) = nearest negative (num * 2 ^ k) (den * 2 ^ j) := by
  generalize ht : (num / den).log2 + k - (j + 52) = t
  have hfirst := shiftToTargetExponent_extended hden ha h ht
  have hlog : k ≤ j ∨ 52 ≤ (num / den).log2 :=
    h.imp_right fun hle => (Nat.le_log2 (by omega)).2 hle
  have hround : roundDiv num (den * 2 ^ (t + j - k)) =
      roundDiv (num * 2 ^ k) (den * 2 ^ j * 2 ^ t) := by
    have hle : k ≤ t + j := by omega
    rw [← roundDiv_mul_right (Nat.two_pow_pos k), Nat.mul_assoc, ← Nat.pow_add,
      Nat.sub_add_cancel hle, Nat.pow_add, Nat.mul_assoc, Nat.mul_comm (2 ^ t)]
  obtain ⟨hlow, hhigh⟩ := scaled_bounds hden hlog ht
  have hD : 0 < den * 2 ^ j := Nat.mul_pos hden (Nat.two_pow_pos j)
  have hsig := roundDiv_significand hD hlow hhigh
  rw [← hround] at hsig
  rw [roundWithAccuracy_of_shift hfirst (roundedMantissa_extended (Nat.mul_pos hden
    (Nat.two_pow_pos _))) hsig.1 hsig.2, nearest, nearestBits_of_log2 (log2_div hD hlow hhigh),
    hround]

end

/-! ## Products and quotients -/

theorem exists_unpack {x : Float} {negative : Bool} {quanta : Nat}
    (h : parts x = .finite negative quanta) :
    quanta = 0 ∧ x.toModel.unpack = .zero (signOf negative) ∨
      ∃ s sig : Nat, quanta = sig * 2 ^ s ∧ sig < 2 ^ 53 ∧ (0 < s → 2 ^ 52 ≤ sig) ∧
        ∃ hpos : 0 < sig, x.toModel.unpack = .finite (signOf negative) sig (s - 1074) hpos := by
  obtain ⟨m, hm, rfl, rfl⟩ := exists_ofBits_of_parts h
  obtain ⟨s, sig, rfl, hq, hsig, hnormal⟩ := exists_significand m
  rcases Nat.eq_zero_or_pos sig with rfl | hpos
  · obtain rfl : s = 0 := by omega
    exact .inl ⟨by rw [hq, Nat.zero_mul], unpack_ofBits_zero⟩
  · exact .inr ⟨s, sig, hq, hsig, hnormal, hpos,
      unpack_ofBits_significand hsig hnormal hpos hm⟩

theorem signOf_mul (a b : Bool) : signOf a * signOf b = signOf (a != b) := by
  cases a <;> cases b <;> rfl

theorem signOf_div (a b : Bool) : signOf a / signOf b = signOf (a != b) := by
  cases a <;> cases b <;> rfl

/-- The dividend is shifted until the quotient has all the bits of a significand. -/
theorem exists_divCore {m m' : Nat} (hm : 0 < m) (hm' : 0 < m') (s s' : Nat) :
    ∃ n, divCore .binary64 m ((s : Int) - 1074) m' ((s' : Int) - 1074) =
        (m * 2 ^ n / m', ((s + 1074 : Nat) : Int) - (s' + n : Nat) - 1074,
          accuracyOfFraction (m * 2 ^ n % m') m') ∧
      (s + 1074 ≤ s' + n ∨ 2 ^ 52 ≤ m * 2 ^ n / m') := by
  have hbits : Format.binary64.mantissaBits = 53 := rfl
  have hmin : Format.binary64.minExponent = -1074 := rfl
  generalize htarget : min ((s : Int) - 1074 - ((s' : Int) - 1074)) (Format.binary64.targetExponent
    (totalExponent m ((s : Int) - 1074) - totalExponent m' ((s' : Int) - 1074))) = target
  refine ⟨((s : Int) - 1074 - ((s' : Int) - 1074) - target).toNat, ?_, ?_⟩
  · simp only [divCore, htarget, Nat.shiftLeft_eq, Prod.mk.injEq, true_and, and_true]
    omega
  · simp only [Format.targetExponent, totalExponent, hbits, hmin] at htarget
    refine or_iff_not_imp_left.2 fun hlt => (Nat.le_div_iff_mul_le hm').2 ?_
    generalize hn : ((s : Int) - 1074 - ((s' : Int) - 1074) - target).toNat = n at *
    have hlog : m'.log2 + 53 ≤ m.log2 + n := by omega
    calc 2 ^ 52 * m' ≤ 2 ^ 52 * 2 ^ (m'.log2 + 1) := Nat.mul_le_mul_left _ Nat.lt_log2_self.le
      _ = 2 ^ (m'.log2 + 53) := by rw [← Nat.pow_add]; congr 1; omega
      _ ≤ 2 ^ (m.log2 + n) := Nat.pow_le_pow_right (by norm_num) hlog
      _ ≤ m * 2 ^ n := by
        rw [Nat.pow_add]
        exact Nat.mul_le_mul_right _ (Nat.log2_self_le hm.ne')

section
variable {x y : Float} {a b : Bool} {p q : Nat}

/-- A product is rounded once. -/
theorem mul_eq_nearest (hx : parts x = .finite a p) (hy : parts y = .finite b q) :
    x * y = nearest (a != b) (p * q) unit := by
  change Float.ofModel (Float.Model.pack (UnpackedFloat.mul _ x.toModel.unpack y.toModel.unpack)) = _
  rcases exists_unpack hx with ⟨rfl, hux⟩ | ⟨s, sig, rfl, hsig, hs, hpos, hux⟩ <;>
    rcases exists_unpack hy with ⟨rfl, huy⟩ | ⟨s', sig', rfl, hsig', hs', hpos', huy⟩ <;>
      rw [hux, huy, UnpackedFloat.mul, signOf_mul]
  · rw [ofModel_pack_zero, nearest, Nat.zero_mul, nearestBits_zero]
  · rw [ofModel_pack_zero, nearest, Nat.zero_mul, nearestBits_zero]
  · rw [ofModel_pack_zero, nearest, Nat.mul_zero, nearestBits_zero]
  · have hexp : (s : Int) - 1074 + (s' - 1074) = ((s + s' : Nat) : Int) - (1074 : Nat) - 1074 := by
      omega
    have hbits : s + s' ≤ 1074 ∨ 2 ^ 52 ≤ sig * sig' / 1 := by
      rw [Nat.div_one]
      rcases Nat.eq_zero_or_pos s with rfl | h
      · rcases Nat.eq_zero_or_pos s' with rfl | h'
        · exact .inl (by norm_num)
        · exact .inr ((hs' h').trans (Nat.le_mul_of_pos_left _ hpos))
      · exact .inr ((hs h).trans (Nat.le_mul_of_pos_right _ hpos'))
    have hpack := @pack_roundWithAccuracy _ _ (a != b) _ _ _ Nat.one_pos
      (ofMantissaAndAccuracy_exact (sig * sig')) hbits
    rw [Nat.div_one, ← hexp] at hpack
    refine hpack.trans ?_
    rw [unit_eq, Nat.one_mul, Nat.pow_add, Nat.mul_mul_mul_comm]

/-- A quotient is rounded once. -/
theorem div_eq_nearest (hx : parts x = .finite a p) (hy : parts y = .finite b q) (h : 0 < q) :
    x / y = nearest (a != b) (p * unit) q := by
  change Float.ofModel (Float.Model.pack (UnpackedFloat.div _ x.toModel.unpack y.toModel.unpack)) = _
  rcases exists_unpack hy with ⟨rfl, huy⟩ | ⟨s', sig', rfl, hsig', hs', hpos', huy⟩
  · exact absurd h (lt_irrefl 0)
  · rcases exists_unpack hx with ⟨rfl, hux⟩ | ⟨s, sig, rfl, hsig, hs, hpos, hux⟩ <;>
      rw [hux, huy, UnpackedFloat.div, signOf_div]
    · rw [ofModel_pack_zero, nearest, Nat.zero_mul, nearestBits_zero]
    · obtain ⟨n, hcore, hbits⟩ := exists_divCore hpos hpos' s s'
      simp only [hcore]
      refine (pack_roundWithAccuracy hpos' (ofMantissaAndAccuracy_fraction hpos') hbits).trans ?_
      have hnum : sig * 2 ^ n * 2 ^ (s + 1074) = sig * 2 ^ s * unit * 2 ^ n := by
        rw [pow_add, ← unit_eq]
        ring
      have hden : sig' * 2 ^ (s' + n) = sig' * 2 ^ s' * 2 ^ n := by rw [Nat.pow_add, Nat.mul_assoc]
      rw [hnum, hden, nearest_mul_right _ (Nat.two_pow_pos n)]

end

/-! ## Finite doubles -/

section
variable {x y : Float}

theorem isFinite_iff : x.isFinite = true ↔ ∃ negative quanta, parts x = .finite negative quanta := by
  change x.toModel.unpack.isFinite = true ↔ _
  cases hx : parts x with
  | nan => simp [unpack_of_parts_nan hx, UnpackedFloat.isFinite]
  | infinite negative =>
    have hinf : x.toModel.unpack.isFinite = false := by
      rw [← infinity_of_parts hx]
      cases negative <;> rfl
    simp [hinf]
  | finite negative quanta =>
    rcases exists_unpack hx with ⟨_, hu⟩ | ⟨_, _, _, _, _, _, hu⟩ <;>
      simp [hu, UnpackedFloat.isFinite]

theorem isNaN_of_isFinite (h : x.isFinite = true) : x.isNaN = false := by
  change x.toModel.unpack.isFinite = true at h
  change x.toModel.unpack.isNaN = false
  cases hx : x.toModel.unpack with
  | notANumber => rw [hx] at h; cases h
  | _ => rfl

theorem isNaN_of_parts {negative : Bool} {quanta : Nat} (h : parts x = .finite negative quanta) :
    x.isNaN = false :=
  isNaN_of_isFinite (isFinite_iff.2 ⟨_, _, h⟩)

theorem isNaN_ofBits {negative : Bool} {m : Nat} (hm : m ≤ infinityBits) :
    (ofBits negative m).isNaN = false := by
  rcases hm.lt_or_eq with hlt | rfl
  · exact isNaN_of_parts (parts_ofBits hlt)
  · cases negative <;> rfl

theorem isFinite_of_pack {u : UnpackedFloat}
    (h : (Float.ofModel (Float.Model.pack u)).isFinite = true) : u.isFinite = true := by
  cases u with
  | notANumber => cases h
  | infinity s => cases s <;> cases h
  | zero s => rfl
  | finite s m e hm => rfl

/-- An operation that keeps what is not finite in its first operand. -/
theorem isFinite_of_operation {op : UnpackedFloat → UnpackedFloat → UnpackedFloat}
    {u v : UnpackedFloat}
    (hnan : (op .notANumber v).isFinite = false) (hinf : ∀ s, (op (.infinity s) v).isFinite = false)
    (h : (Float.ofModel (Float.Model.pack (op u v))).isFinite = true) : u.isFinite = true := by
  have h := isFinite_of_pack h
  cases u with
  | notANumber => rw [hnan] at h; cases h
  | infinity s => rw [hinf] at h; cases h
  | zero s => rfl
  | finite s m e hm => rfl

theorem isFinite_of_mul (h : (x * y).isFinite = true) : x.isFinite = true := by
  refine @isFinite_of_operation (UnpackedFloat.mul .binary64) _ _ rfl (fun s => ?_) h
  cases y.toModel.unpack <;> rfl

theorem isFinite_of_div (h : (x / y).isFinite = true) : x.isFinite = true := by
  refine @isFinite_of_operation (UnpackedFloat.div .binary64) _ _ rfl (fun s => ?_) h
  cases y.toModel.unpack <;> rfl

theorem isFinite_of_roundEven (h : (roundEven x).isFinite = true) : x.isFinite = true := by
  cases hx : parts x with
  | finite negative quanta => exact isFinite_iff.2 ⟨negative, quanta, hx⟩
  | nan =>
    unfold roundEven mapWhole at h
    rwa [hx] at h
  | infinite negative =>
    unfold roundEven mapWhole at h
    rwa [hx] at h

theorem parts_zero : parts 0 = .finite false 0 := rfl

theorem beq_zero {negative : Bool} {quanta : Nat} (hx : parts x = .finite negative quanta) :
    (x == 0) = decide (quanta = 0) := by
  have hzero : (0 : Float).toModel.unpack = .zero .positive := rfl
  change x.toModel.unpack.beq (0 : Float).toModel.unpack = _
  rw [hzero]
  rcases exists_unpack hx with ⟨rfl, hu⟩ | ⟨s, sig, rfl, _, _, hpos, hu⟩ <;> rw [hu]
  · rfl
  · rw [decide_eq_false (Nat.mul_pos hpos (Nat.two_pow_pos s)).ne']
    cases negative <;> rfl

end

end Reckoner.Double
