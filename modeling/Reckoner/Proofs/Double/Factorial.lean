import Reckoner.Operator.Apply
import Reckoner.Proofs.Double.Places
import Reckoner.Proofs.Double.Value

/-!
# Factorials as full products

A factor of a factorial is the double nearest to a whole number (`ofNat_eq_nearest`), so it is
positive, and an infinite product stays as it is (`infinity_mul_ofNat`). To stop there is therefore
to take the product to its last factor (`risingProduct_wholeProduct`), and the factorial of a whole
number is the full product, however large the number is (`factorial_whole`).
-/

namespace Reckoner.Double

open Float.Model Float.Model.UnpackedFloat

/-! ## Whole numbers as doubles -/

theorem mul_two_pow_mul (n : Nat) {a b : Nat} (h : a + b = 1074) :
    n * 2 ^ a * 2 ^ b = n * unit := by
  rw [Nat.mul_assoc, ← pow_add, h, unit_eq]

section
variable {n : Nat}

/-- A whole number is shifted up to 53 bits before it is rounded. -/
theorem ofModel_pack_ofNat (hpos : 0 < n) :
    Float.ofModel (Float.Model.pack (UnpackedFloat.ofNat .binary64 n)) =
      nearest false (n * unit) 1 := by
  have hcompare : compare (n : Int) 0 = .gt := Int.compare_eq_gt.2 (by omega)
  have hbits : Format.binary64.mantissaBits = 53 := rfl
  have hmin : Format.binary64.minExponent = -1074 := rfl
  have htarget : (0 - Format.binary64.targetExponent (totalExponent n 0)).toNat = 52 - n.log2 := by
    simp only [Format.targetExponent, totalExponent, hbits, hmin]
    omega
  generalize hshift : 52 - n.log2 = shift at htarget
  have hexp : (0 : Int) - shift = ((1074 - shift : Nat) : Int) - (0 : Nat) - 1074 := by omega
  have hlarge : 2 ^ 52 ≤ n * 2 ^ shift / 1 := by
    rw [Nat.div_one]
    refine (Nat.le_log2 (Nat.mul_pos hpos (Nat.two_pow_pos shift)).ne').1 ?_
    rw [log2_mul_two_pow hpos]
    omega
  have hsum : shift + (1074 - shift) = 1074 := by omega
  have hpack := @pack_roundWithAccuracy _ _ false _ 0 (1074 - shift) Nat.one_pos
    (ofMantissaAndAccuracy_exact (n * 2 ^ shift)) (.inr hlarge)
  rw [Nat.div_one, ← hexp, mul_two_pow_mul n hsum] at hpack
  simp only [UnpackedFloat.ofNat, UnpackedFloat.ofInt, UnpackedFloat.normalize, hcompare,
    Int.toNat_natCast, UnpackedFloat.round, decreaseExponent, htarget, Nat.shiftLeft_eq]
  exact hpack

theorem ofModel_ofScientific (hpos : 0 < n) :
    Float.ofModel (Float.Model.ofScientific n 0) = nearest false (n * unit) 1 := by
  have hlow : ¬ ((0 : Int) < -(2 ^ Format.binary64.exponentBits + (n.log2 : Nat))) := by
    have : (0 : Int) ≤ 2 ^ Format.binary64.exponentBits := by positivity
    omega
  have hexp : ((1021 : Nat) : Int) - (0 : Nat) - 1074 = -53 + 0 := by norm_num
  have hpack := @pack_roundWithAccuracy _ _ false _ 0 1021 Nat.one_pos
    (ofMantissaAndAccuracy_exact (n * 2 ^ 53)) (.inr (by omega))
  rw [Nat.div_one, mul_two_pow_mul n (by norm_num), hexp] at hpack
  change Float.ofModel (Float.Model.pack (UnpackedFloat.ofScientific .binary64 n 0)) = _
  rw [UnpackedFloat.ofScientific, dif_neg hpos.ne', if_neg (by decide), if_neg hlow,
    if_pos le_rfl, UnpackedFloat.mul]
  simp only [Nat.shiftLeft_eq, Int.toNat_zero, Nat.pow_zero, Nat.mul_one]
  exact hpack

theorem parts_one : parts 1 = .finite false unit := rfl

theorem mul_one_eq {x : Float} {negative : Bool} {quanta : Nat}
    (h : parts x = .finite negative quanta) : x * 1 = x := by
  have hscale := @nearest_mul_right quanta 1 unit negative unit_pos
  rw [Nat.one_mul] at hscale
  rw [mul_eq_nearest h parts_one, Bool.bne_false, hscale]
  exact ofQuanta_eq h

/-- A whole number as a double is rounded once. -/
theorem ofNat_eq_nearest (n : Nat) : Float.ofNat n = nearest false (n * unit) 1 := by
  rcases Nat.eq_zero_or_pos n with rfl | hpos
  · rw [Nat.zero_mul, nearest, nearestBits_zero]
    rfl
  change Float.ofScientific n false 0 = _
  unfold Float.ofScientific
  split
  · -- a word that is scaled by one
    rename_i h
    have hword : n.toUInt64.toNat = n := Nat.mod_eq_of_lt (by omega)
    have hfloat : n.toUInt64.toFloat = nearest false (n * unit) 1 := by
      rw [← ofModel_pack_ofNat hpos]
      change Float.ofModel (Float.Model.pack (UnpackedFloat.ofNat _ n.toUInt64.toNat)) = _
      rw [hword]
    have hfactor : Float.exactlyRepresentablePowersOfTen[0] = 1 := rfl
    have hbound : nearestWhole n < wholeBound := by
      rw [nearestWhole_of_lt h.1]
      exact h.1.trans (by decide)
    simp only [hfactor, hfloat]
    exact mul_one_eq (parts_nearest_whole false hbound)
  · exact ofModel_ofScientific hpos

end

/-! ## Infinite products -/

theorem infinity_mul {a b : Bool} {y : Float} {q : Nat} (hy : parts y = .finite b q)
    (hq : 0 < q) : infinity a * y = infinity (a != b) := by
  have hinf : ∀ c, infinity c = Float.ofModel (Float.Model.pack (.infinity (signOf c))) := by
    intro c
    cases c <;> rfl
  have hunpack : (infinity a).toModel.unpack = .infinity (signOf a) := by cases a <;> rfl
  change Float.ofModel (Float.Model.pack
    (UnpackedFloat.mul _ (infinity a).toModel.unpack y.toModel.unpack)) = _
  rcases exists_unpack hy with ⟨rfl, -⟩ | ⟨s, sig, -, -, -, hpos, hu⟩
  · cases hq
  · rw [hunpack, hu, UnpackedFloat.mul, signOf_mul, hinf]

/-- A positive factor does not change an infinity. -/
theorem infinity_mul_ofNat (a : Bool) {n : Nat} (hn : 0 < n) :
    infinity a * Float.ofNat n = infinity a := by
  rw [ofNat_eq_nearest]
  by_cases h : nearestWhole n < wholeBound
  · have hpos : 0 < nearestWhole n * unit := Nat.mul_pos (nearestWhole_pos hn) unit_pos
    rw [infinity_mul (parts_nearest_whole false h) hpos, Bool.bne_false]
  · rw [nearest_whole_eq_infinity false h]
    cases a <;> rfl

/-! ## Products -/

/-- The product `1 * 2 * … * n` from left to right and to the last factor, each of them a double
(`ofNat_eq_nearest`), rounded after each. -/
def wholeProduct : (n : Nat) → Float
  | 0 => 1
  | n + 1 => wholeProduct n * Float.ofNat (n + 1)

theorem wholeProduct_of_isInf {k : Nat} (h : (wholeProduct k).isInf = true) (count : Nat) :
    wholeProduct (k + count) = wholeProduct k := by
  obtain ⟨negative, hparts⟩ := isInf_iff.1 h
  have hinf := infinity_of_parts hparts
  induction count with
  | zero => rfl
  | succ count ih =>
    rw [← Nat.add_assoc, wholeProduct, ih, ← hinf, infinity_mul_ofNat negative (Nat.succ_pos _)]

/-- A product that stops when it is infinite is the full product. -/
theorem risingProduct_wholeProduct (k count : Nat) :
    risingProduct (wholeProduct k) (k + 1) count = wholeProduct (k + count) := by
  induction count generalizing k with
  | zero => rfl
  | succ count ih =>
    have hnext : wholeProduct k * Float.ofNat (k + 1) = wholeProduct (k + 1) := rfl
    have hsum : k + (count + 1) = k + 1 + count := by omega
    simp only [risingProduct, hnext]
    rw [hsum]
    split
    · rename_i h
      exact (wholeProduct_of_isInf h count).symm
    · exact ih (k + 1)

/-! ## Whole operands -/

section
variable {x : Float} {negative : Bool} {n : Nat}

theorem beq_self (h : x.isNaN = false) : (x == x) = true := by
  have hne : x.toModel.unpack ≠ .notANumber := by
    intro hu
    change x.toModel.unpack.isNaN = false at h
    rw [hu] at h
    cases h
  exact (UnpackedFloat.beq_iff_ne_notANumber_and_eq _ _).2 ⟨hne, hne, .inl rfl⟩

theorem ceilDiv_mul_self (n : Nat) {den : Nat} (h : 0 < den) : ceilDiv (n * den) den = n := by
  rw [ceilDiv, Nat.mul_comm, Nat.mul_add_div h, Nat.div_eq_of_lt (by omega), Nat.add_zero]

theorem isWhole_of_parts (h : parts x = .finite negative (n * unit)) : isWhole x = true := by
  have hfloor : floor x = x := by
    have hround : (if negative then ceilDiv (n * unit) unit else n * unit / unit) = n := by
      rw [ceilDiv_mul_self n unit_pos, Nat.mul_div_cancel _ unit_pos, ite_self]
    simp only [floor, mapWhole, h, hround]
    exact ofQuanta_eq h
  rw [isWhole, hfloor]
  exact beq_self (isNaN_of_parts h)

theorem factorial?_of_parts (h : parts x = .finite negative (n * unit)) :
    factorial? x = some (if negative then 1 else wholeProduct n) := by
  have hproduct : risingProduct 1 1 n = wholeProduct n := by
    have := risingProduct_wholeProduct 0 n
    rwa [Nat.zero_add, Nat.zero_add] at this
  unfold factorial?
  cases negative
  · simp only [h, Nat.mul_div_cancel _ unit_pos, hproduct, Bool.false_eq_true, if_false]
  · simp only [h, if_true]

end

/-- The factorial of a finite whole number, of any size, is the full product, one if the number is
not positive; as an operator it refuses none of them. It is infinite for infinity and one for its
negative. -/
theorem factorial_whole :
    (∀ (x : Float) (n : ℤ), toRat? x = some (n : ℚ) →
      factorial? x = some (wholeProduct n.toNat) ∧ (n ≤ 0 → factorial? x = some 1) ∧
        Operator.fact.value [x] = .ok (wholeProduct n.toNat)) ∧
    (factorial? (infinity false) = some (infinity false) ∧
      Operator.fact.value [infinity false] = .ok (infinity false)) ∧
    factorial? (infinity true) = some 1 ∧ Operator.fact.value [infinity true] = .ok 1 := by
  refine ⟨fun x n hx => ?_, ⟨?_, ?_⟩, ?_, ?_⟩
  · obtain ⟨negative, hparts, hn⟩ := parts_of_toRat?_whole hx
    have hfactorial : factorial? x = some (wholeProduct n.toNat) := by
      rw [factorial?_of_parts hparts]
      cases negative
      · have hnat : n.natAbs = n.toNat := by
          have : (n.natAbs : ℤ) = n := hn
          omega
        rw [hnat]
        rfl
      · have hnat : n.toNat = 0 := by
          have : -(n.natAbs : ℤ) = n := hn
          omega
        rw [hnat]
        rfl
    refine ⟨hfactorial, fun hle => ?_, ?_⟩
    · rw [hfactorial, Int.toNat_of_nonpos hle]
      rfl
    · simp [Operator.value, Operator.result?, isWhole_of_parts hparts, hfactorial]
  -- the infinities are settled by computation
  all_goals rfl

/-- The largest double has a factorial too, the product of some `10 ^ 308` factors. -/
theorem factorial_whole_largest :
    let x := ofBits false (infinityBits - 1)
    let n : Nat := (1 <<< 53 - 1) <<< 971
    (toRat? x = some ((n : ℤ) : ℚ) ∧ factorial? x = some (wholeProduct n) ∧
      Operator.fact.value [x] = .ok (wholeProduct n)) ∧
    toRat? (-3) = some ((-3 : ℤ) : ℚ) ∧ (-3 : ℤ) ≤ 0 ∧ factorial? (-3) = some 1 := by
  intro x n
  have hlargest : parts x = .finite false (n * unit) := by decide +kernel
  have hx : toRat? x = some ((n : ℤ) : ℚ) := toRat?_of_whole hlargest
  have hnegative : parts (-3) = .finite true (3 * unit) := rfl
  have hthree : toRat? (-3) = some ((-3 : ℤ) : ℚ) := by
    simpa [signed] using toRat?_of_whole hnegative
  obtain ⟨hproduct, -, hvalue⟩ := factorial_whole.1 x n hx
  rw [Int.toNat_natCast] at hproduct hvalue
  have hle : (-3 : ℤ) ≤ 0 := by decide
  exact ⟨⟨hx, hproduct, hvalue⟩, hthree, hle, (factorial_whole.1 (-3) (-3) hthree).2.1 hle⟩

end Reckoner.Double
