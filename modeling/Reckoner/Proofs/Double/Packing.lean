import Mathlib
import Reckoner.Double.Whole

/-!
# Packed doubles

A double is packed from a sign, an exponent and a mantissa, and unpacked it is the same again
(`pack_unpack`). Rounding does not look at the sign, so a minus passes through, bit for bit:

* `neg_mul`, `neg_div`: from the first operand of a product or a quotient to the result;
* `add_neg`: adding what has a minus is subtracting what has none.

The one value that is not a number is the one that is not equal to itself, so a whole operand has a
factorial (`isSome_factorial?`).
-/

namespace Reckoner.Double

open Float.Model Float.Model.UnpackedFloat

/-! ## Fields -/

section
variable {spec : Format} {s : UnpackedFloat.Sign} {e : BitVec spec.exponentBits}
  {m : BitVec spec.mantissaBitsWithoutImplicit}

theorem ofBitVec_toBitVec (s : UnpackedFloat.Sign) : Sign.ofBitVec s.toBitVec = s := by
  cases s <;> rfl

theorem toBitVec_ofBitVec (b : BitVec 1) : (Sign.ofBitVec b).toBitVec = b := by
  rcases BitVec.eq_zero_or_eq_one b with rfl | rfl <;> rfl

theorem unpackSign_packComponents : unpackSign (packComponents spec s e m) = s.toBitVec := by
  ext i hi
  obtain rfl : i = 0 := by omega
  simp [unpackSign, packComponents, BitVec.getLsbD_append, BitVec.getElem_append]

/-- The three fields of a double are all of its bits. -/
theorem packComponents_unpack (b : BitVec spec.numBits) :
    packComponents spec (Sign.ofBitVec (unpackSign b)) (unpackExponent b) (unpackMantissa b) =
      b := by
  have hbits : spec.numBits = 1 + spec.exponentBits + spec.mantissaBitsWithoutImplicit := rfl
  have hm := spec.hm
  have he := spec.he
  ext i hi
  simp only [packComponents, toBitVec_ofBitVec, BitVec.getElem_append, unpackMantissa,
    unpackExponent, unpackSign]
  split
  · simp [hi]
  · split
    · have hi' : spec.mantissaBitsWithoutImplicit + (i - spec.mantissaBitsWithoutImplicit) = i := by
        omega
      simp [hi', BitVec.getLsbD_eq_getElem hi]
    · obtain rfl : i = spec.mantissaBitsWithoutImplicit + spec.exponentBits := by omega
      simp [BitVec.getLsbD_eq_getElem hi]

/-- The sign stands beside the other fields. -/
theorem unpack_packComponents_neg :
    UnpackedFloat.unpack spec (packComponents spec (-s) e m) =
      (UnpackedFloat.unpack spec (packComponents spec s e m)).neg := by
  simp only [UnpackedFloat.unpack, unpackExponent_packComponents, unpackMantissa_packComponents,
    unpackSign_packComponents, ofBitVec_toBitVec]
  split
  · split <;> rfl
  · split
    · split <;> rfl
    · rfl

end

/-! ## There and back -/

theorem unpack_pack_neg (u : UnpackedFloat) :
    UnpackedFloat.unpack .binary64 (UnpackedFloat.pack .binary64 u.neg) =
      (UnpackedFloat.unpack .binary64 (UnpackedFloat.pack .binary64 u)).neg := by
  cases u with
  | notANumber => rfl
  | infinity s => exact unpack_packComponents_neg
  | zero s => exact unpack_packComponents_neg
  | finite s m e hm =>
    simp only [UnpackedFloat.neg, UnpackedFloat.pack]
    split
    · exact unpack_packComponents_neg
    · split <;> exact unpack_packComponents_neg

theorem toNat_append {k n : Nat} (x : BitVec k) (m : BitVec n) :
    (x ++ m).toNat = x.toNat * 2 ^ n + m.toNat := by
  rw [BitVec.toNat_append, ← Nat.shiftLeft_add_eq_or_of_lt m.isLt, Nat.shiftLeft_eq]

theorem log2_append {n : Nat} (m : BitVec n) : (1#1 ++ m).toNat.log2 = n := by
  have h : (1#1 ++ m).toNat = 2 ^ n + m.toNat := by
    rw [toNat_append, BitVec.toNat_one (by norm_num), Nat.one_mul]
  have hm := m.isLt
  have hn := Nat.two_pow_pos n
  rw [h, Nat.log2_eq_iff (by omega)]
  omega

theorem pack_unpack_packComponents {s : UnpackedFloat.Sign}
    {e : BitVec Format.binary64.exponentBits}
    {m : BitVec Format.binary64.mantissaBitsWithoutImplicit} (h : e = -1#_ → m = 0#_) :
    UnpackedFloat.pack .binary64 (UnpackedFloat.unpack .binary64 (packComponents .binary64 s e m)) =
      packComponents .binary64 s e m := by
  have hbias : Format.binary64.exponentBias = 1023 := rfl
  have he : e.toNat < 2 ^ 11 := e.isLt
  have hm : m.toNat < 2 ^ 52 := m.isLt
  simp only [UnpackedFloat.unpack, unpackExponent_packComponents, unpackMantissa_packComponents,
    unpackSign_packComponents, ofBitVec_toBitVec]
  split
  · rename_i hmax
    rw [if_pos (h hmax), h hmax, hmax]
    rfl
  · rename_i hmax
    split
    · rename_i hzero
      subst hzero
      split
      · rename_i hzero
        rw [hzero]
        rfl
      · -- a subnormal number has no bit at 52
        rename_i hne
        have hlog : m.toNat.log2 < 52 :=
          (Nat.log2_lt (by simpa [← BitVec.toNat_inj] using hne)).2 hm
        have hsub : ¬ m.toNat.log2 + 1 = 1 + 52 := by omega
        simp only [UnpackedFloat.pack, hbias, Format.mantissaBits, hsub, if_false,
          BitVec.ofNat_toNat, BitVec.setWidth_eq]
        rfl
    · have hlog : (1#1 ++ m).toNat.log2 = 52 := log2_append m
      have hexp : ((e.toNat : Int) - ((1023 : Nat) + (52 : Nat)) + (1023 : Nat) +
          (52 : Nat)).toNat = e.toNat := by omega
      have hlt : ¬ 2 ^ 11 ≤ e.toNat + 1 := by
        have : e.toNat ≠ 2 ^ 11 - 1 := fun heq => hmax (BitVec.eq_of_toNat_eq heq)
        omega
      simp only [UnpackedFloat.pack, hbias, Format.mantissaBits, hlog]
      rw [hexp, if_neg hlt, if_true, BitVec.ofNat_toNat, BitVec.ofNat_toNat, BitVec.setWidth_eq]
      exact congrArg _ BitVec.setWidth_append_eq_right

theorem pack_unpack (x : Float.Model) : Float.Model.pack x.unpack = x := by
  obtain ⟨bits, hvalid⟩ := x
  have h : UnpackedFloat.pack .binary64 (UnpackedFloat.unpack .binary64 bits.toBitVec) =
      bits.toBitVec := by
    by_cases hnan : @unpackExponent .binary64 bits.toBitVec = -1#_ ∧
        @unpackMantissa .binary64 bits.toBitVec ≠ 0#_
    · rw [hvalid.eq_packedNaN hnan.1 hnan.2]
      rfl
    · rw [← @packComponents_unpack .binary64 bits.toBitVec]
      exact pack_unpack_packComponents fun he => Decidable.not_not.1 fun hm => hnan ⟨he, hm⟩
  simp only [Float.Model.pack, Float.Model.unpack, h]

theorem unpack_neg (x : Float.Model) : (-x).unpack = x.unpack.neg := by
  have hself : (Float.Model.pack x.unpack).unpack = x.unpack := by rw [pack_unpack]
  have h := unpack_pack_neg x.unpack
  exact h.trans (congrArg UnpackedFloat.neg hself)

theorem pack_neg (u : UnpackedFloat) : Float.Model.pack u.neg = -Float.Model.pack u := by
  rw [← pack_unpack (Float.Model.pack u.neg)]
  exact congrArg Float.Model.pack (unpack_pack_neg u)

/-! ## A minus in arithmetic -/

theorem roundWithAccuracy_neg (spec : Format) (s : UnpackedFloat.Sign) (m : Nat) (e : Int)
    (a : Accuracy) : roundWithAccuracy spec (-s) m e a = (roundWithAccuracy spec s m e a).neg := by
  simp only [roundWithAccuracy]
  split <;> rfl

theorem mul_neg_unpacked (spec : Format) (u v : UnpackedFloat) :
    UnpackedFloat.mul spec u.neg v = (UnpackedFloat.mul spec u v).neg := by
  have hs : ∀ s s' : UnpackedFloat.Sign, -s * s' = -(s * s') := by
    intro s s'
    cases s <;> cases s' <;> rfl
  cases u <;> cases v <;>
    simp [UnpackedFloat.mul, UnpackedFloat.neg, hs, roundWithAccuracy_neg]

theorem div_neg_unpacked (spec : Format) (u v : UnpackedFloat) :
    UnpackedFloat.div spec u.neg v = (UnpackedFloat.div spec u v).neg := by
  have hs : ∀ s s' : UnpackedFloat.Sign, -s / s' = -(s / s') := by
    intro s s'
    cases s <;> cases s' <;> rfl
  cases u <;> cases v <;>
    simp [UnpackedFloat.div, UnpackedFloat.neg, hs, roundWithAccuracy_neg]

theorem add_neg_unpacked (spec : Format) (u v : UnpackedFloat) :
    UnpackedFloat.add spec u v.neg = UnpackedFloat.sub spec u v := by
  have hs : ∀ (s : UnpackedFloat.Sign) (m : Int), (-s).apply m = -s.apply m := by
    intro s m
    cases s
    · exact (Int.neg_neg m).symm
    · rfl
  cases u <;> cases v <;>
    simp [UnpackedFloat.add, UnpackedFloat.sub, UnpackedFloat.neg, hs, Int.sub_eq_add_neg]

theorem neg_mul (x y : Float) : -x * y = -(x * y) := by
  refine congrArg Float.ofModel ?_
  change Float.Model.pack (UnpackedFloat.mul _ (-x.toModel).unpack y.toModel.unpack) = _
  rw [unpack_neg, mul_neg_unpacked, pack_neg]
  rfl

theorem neg_div (x y : Float) : -x / y = -(x / y) := by
  refine congrArg Float.ofModel ?_
  change Float.Model.pack (UnpackedFloat.div _ (-x.toModel).unpack y.toModel.unpack) = _
  rw [unpack_neg, div_neg_unpacked, pack_neg]
  rfl

theorem add_neg (x y : Float) : x + -y = x - y := by
  refine congrArg Float.ofModel ?_
  change Float.Model.pack (UnpackedFloat.add _ x.toModel.unpack (-y.toModel).unpack) = _
  rw [unpack_neg, add_neg_unpacked]
  rfl

/-! ## Not a number -/

theorem unpack_of_parts_nan {x : Float} (h : parts x = .nan) :
    x.toModel.unpack = .notANumber := by
  have hbits : 2047 * 2 ^ 52 < x.toModel.toBits.toBitVec.toNat % 2 ^ 63 := by
    simp only [parts] at h
    split at h
    · assumption
    · split at h <;> cases h
  have he : @unpackExponent .binary64 x.toModel.toBits.toBitVec = -1#_ := by
    apply BitVec.eq_of_toNat_eq
    simp only [unpackExponent, BitVec.toNat_cast, BitVec.extractLsb_toNat,
      Nat.shiftRight_eq_div_pow]
    change _ / 2 ^ 52 % 2 ^ 11 = 2047
    omega
  have hm : @unpackMantissa .binary64 x.toModel.toBits.toBitVec ≠ 0#_ := by
    intro hz
    have hz := congrArg BitVec.toNat hz
    simp only [unpackMantissa, BitVec.toNat_cast, BitVec.extractLsb_toNat,
      Nat.shiftRight_eq_div_pow] at hz
    change _ / 2 ^ 0 % 2 ^ 52 = 0 at hz
    omega
  simp only [Float.Model.unpack, UnpackedFloat.unpack, he, hm, if_true, if_false]

/-- What is not a number is not whole either. -/
theorem isSome_factorial? {x : Float} (h : isWhole x = true) : (factorial? x).isSome = true := by
  unfold factorial?
  split
  · rename_i hn
    have hfloor : floor x = x := by
      unfold floor mapWhole
      rw [hn]
    rw [isWhole, hfloor] at h
    change x.toModel.unpack.beq x.toModel.unpack = true at h
    rw [unpack_of_parts_nan hn] at h
    cases h
  all_goals rfl

end Reckoner.Double
