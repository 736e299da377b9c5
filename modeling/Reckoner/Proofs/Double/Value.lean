import Reckoner.Proofs.Double.Arithmetic

/-!
# Exact values

A finite double is a rational number, its quanta with a sign (`toRat?`). A number of quanta with a
significand of 53 bits is not rounded (`parts_ofQuanta`), and every double has such a significand
(`exists_significand_of_parts`).
-/

namespace Reckoner.Double

open Float.Model

/-- A number or its negative. -/
def signed {α : Type} [Neg α] (negative : Bool) (x : α) : α := if negative then -x else x

/-- The exact value of a finite double. -/
def toRat? (x : Float) : Option ℚ :=
  match parts x with
  | .finite negative quanta => some (signed negative (quanta / unit))
  | .nan | .infinite _ => none

/-- Whether a double has a minus; a zero may have one too. -/
def isNegative (x : Float) : Bool := decide (signBit ≤ x.toBits.toNat)

section
variable {x : Float} {negative : Bool} {quanta : Nat}

theorem isNegative_of_parts (h : parts x = .finite negative quanta) : isNegative x = negative := by
  simp only [parts] at h
  split at h
  · cases h
  · split at h
    · cases h
    · cases h
      rfl

theorem toRat?_of_parts (h : parts x = .finite negative quanta) :
    toRat? x = some (signed negative (quanta / unit : ℚ)) := by
  rw [toRat?, h]

theorem parts_of_toRat? {v : ℚ} (h : toRat? x = some v) : ∃ negative quanta,
    parts x = .finite negative quanta ∧ v = signed negative (quanta / unit : ℚ) := by
  unfold toRat? at h
  split at h
  · rename_i negative quanta hx
    exact ⟨negative, quanta, hx, (Option.some.inj h).symm⟩
  all_goals cases h

theorem isInf_iff : x.isInf = true ↔ ∃ negative, parts x = .infinite negative := by
  change x.toModel.unpack.isInf = true ↔ _
  cases hx : parts x with
  | nan => simp [unpack_of_parts_nan hx, UnpackedFloat.isInf]
  | infinite negative =>
    have hinf : x.toModel.unpack.isInf = true := by
      rw [← infinity_of_parts hx]
      cases negative <;> rfl
    simp [hinf]
  | finite negative quanta =>
    rcases exists_unpack hx with ⟨-, hu⟩ | ⟨_, _, _, _, _, _, hu⟩ <;>
      simp [hu, UnpackedFloat.isInf]

theorem isNaN_iff : x.isNaN = true ↔ parts x = .nan := by
  refine ⟨fun h => ?_, fun h => ?_⟩
  · rw [eq_nan_of_isNaN h]
    rfl
  · change x.toModel.unpack.isNaN = true
    rw [unpack_of_parts_nan h]
    rfl

/-- Both zeros are equal to zero, and nothing else is. -/
theorem parts_of_beq_zero (h : (x == 0) = true) : ∃ negative, parts x = .finite negative 0 := by
  cases hx : parts x with
  | nan =>
    change x.toModel.unpack.beq (0 : Float).toModel.unpack = true at h
    rw [unpack_of_parts_nan hx] at h
    cases h
  | infinite negative =>
    rw [← infinity_of_parts hx] at h
    cases negative <;> cases h
  | finite negative quanta =>
    rw [beq_zero hx, decide_eq_true_eq] at h
    exact ⟨negative, h ▸ rfl⟩

end

/-! ## Signs -/

section
variable (a b : Bool)

theorem abs_signed (v : ℚ) : |signed a v| = |v| := by
  cases a
  · rfl
  · exact abs_neg v

theorem signed_eq_zero {v : ℚ} : signed a v = 0 ↔ v = 0 := by
  cases a
  · rfl
  · exact neg_eq_zero

theorem cast_signed (n : ℤ) : ((signed a n : ℤ) : ℚ) = signed a (n : ℚ) := by
  cases a
  · rfl
  · exact Int.cast_neg n

theorem signed_div (v w : ℚ) : signed a (v / w) = signed a v / w := by
  cases a
  · rfl
  · exact neg_div' w v

theorem signed_div_signed (v w : ℚ) : signed a v / signed b w = signed (a != b) (v / w) := by
  cases a <;> cases b
  · rfl
  · exact div_neg v
  · exact (neg_div' w v).symm
  · exact neg_div_neg_eq v w

theorem signed_mul_signed (v w : ℚ) : signed (a != b) v * signed b w = signed a (v * w) := by
  cases a <;> cases b <;> simp [signed]

theorem signed_sub_signed (v w : ℚ) : signed a v - signed a w = signed a (v - w) := by
  cases a
  · rfl
  · simp only [signed, if_true]
    ring

/-- The sign of a whole number counts as a second sign. -/
theorem signed_natAbs (n : ℤ) :
    signed (a != decide (n < 0)) (n.natAbs : ℚ) = signed a (n : ℚ) := by
  have habs : (n.natAbs : ℚ) = |(n : ℚ)| := by rw [Nat.cast_natAbs, Int.cast_abs]
  rw [habs]
  rcases Int.lt_or_le n 0 with h | h
  · rw [decide_eq_true h, abs_of_neg (by exact_mod_cast h)]
    cases a <;> simp [signed]
  · rw [decide_eq_false (by omega), abs_of_nonneg (by exact_mod_cast h), Bool.bne_false]

end

/-! ## Whole numbers -/

section
variable {x : Float} {negative : Bool} {n : Nat}

theorem toRat?_of_whole (h : parts x = .finite negative (n * unit)) :
    toRat? x = some (signed negative (n : ℚ)) := by
  have hunit : (unit : ℚ) ≠ 0 := by exact_mod_cast unit_pos.ne'
  rw [toRat?_of_parts h, Nat.cast_mul, mul_div_cancel_right₀ _ hunit]

/-- Only a zero may have either sign. -/
theorem parts_of_toRat?_whole {n : ℤ} (h : toRat? x = some (n : ℚ)) : ∃ negative,
    parts x = .finite negative (n.natAbs * unit) ∧ signed negative (n.natAbs : ℤ) = n := by
  obtain ⟨negative, quanta, hx, hn⟩ := parts_of_toRat? h
  have hunit : (unit : ℚ) ≠ 0 := by exact_mod_cast unit_pos.ne'
  have habs : (n.natAbs : ℚ) = quanta / unit := by
    have hnonneg : (0 : ℚ) ≤ quanta / unit := div_nonneg (Nat.cast_nonneg _) (Nat.cast_nonneg _)
    rw [Nat.cast_natAbs, Int.cast_abs, hn, abs_signed, abs_of_nonneg hnonneg]
  have hquanta : quanta = n.natAbs * unit := by
    exact_mod_cast (div_eq_iff hunit).1 habs.symm
  refine ⟨negative, hquanta ▸ hx, ?_⟩
  rw [← Int.cast_inj (α := ℚ), cast_signed, Int.cast_natCast, habs, hn]

end

/-! ## Numbers of quanta that are doubles -/

section
variable {x : Float} {negative : Bool} {quanta s c : Nat}

theorem exists_significand_of_parts (h : parts x = .finite negative quanta) :
    quanta < 2 ^ 53 * 2 ^ 2045 ∧ ∃ s sig, quanta = sig * 2 ^ s ∧ sig < 2 ^ 53 := by
  obtain ⟨m, hm, rfl, -⟩ := exists_ofBits_of_parts h
  obtain ⟨s, sig, rfl, hq, hsig, hnormal⟩ := exists_significand m
  rw [hq]
  exact ⟨(lt_infinityBits_iff hsig.le hnormal).1 hm, s, sig, rfl, hsig⟩

theorem parts_ofQuanta (hc : c < 2 ^ 53) (hquanta : quanta = c * 2 ^ s)
    (hbound : quanta < 2 ^ 53 * 2 ^ 2045) :
    parts (ofQuanta negative quanta) = .finite negative quanta := by
  generalize hshift : (quanta / 1).log2 - 52 = t
  obtain ⟨low, high⟩ := bounds_of_log2 Nat.one_pos hshift
  obtain ⟨hle, hnormal⟩ := roundDiv_significand Nat.one_pos low high
  -- the significand is shifted no further than the quanta have zeros
  have hts : t ≤ s := by
    rcases Nat.eq_zero_or_pos t with rfl | ht
    · exact Nat.zero_le s
    · have hlow := low ht
      have hhigh : quanta < 2 ^ 53 * 2 ^ s :=
        hquanta ▸ Nat.mul_lt_mul_of_pos_right hc (Nat.two_pow_pos s)
      rw [Nat.mul_one] at hlow
      rw [← Nat.pow_add] at hhigh
      have := (Nat.pow_lt_pow_iff_right (by norm_num)).1 (hlow.trans_lt hhigh)
      omega
  have hsplit : quanta = c * 2 ^ (s - t) * 2 ^ t := by
    rw [hquanta, Nat.mul_assoc, ← Nat.pow_add, Nat.sub_add_cancel hts]
  have hround : roundDiv quanta (1 * 2 ^ t) * 2 ^ t = quanta := by
    rw [Nat.one_mul, hsplit, roundDiv_mul_self _ (Nat.two_pow_pos t)]
  have hlt : t * 2 ^ 52 + roundDiv quanta (1 * 2 ^ t) < infinityBits := by
    refine (lt_infinityBits_iff hle hnormal).2 ?_
    rw [hround]
    exact hbound
  rw [ofQuanta, nearest, nearestBits_of_log2 hshift, Nat.min_eq_left hlt.le, parts_ofBits hlt,
    quantaOfBits_significand hle hnormal, hround]

end

end Reckoner.Double
