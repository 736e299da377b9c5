/-!
# Doubles as whole numbers of quanta

Every finite double is a sign and a whole number of quanta of `2 ^ -1074`, the least positive
double. Rounding to whole numbers, exact remainders and decimal digits are therefore arithmetic
on natural numbers; this module goes from a double to its parts and back.

The bits below the sign bit count the doubles of one sign in order of size. A double is
`significand * 2 ^ shift` quanta with a significand below `2 ^ 53`, and one of at least `2 ^ 52`
where `shift` is not zero; its bits are `shift * 2 ^ 52 + significand`.
-/

namespace Reckoner.Double

/-- What a double stands for. -/
inductive Parts where
  | nan
  | infinite (negative : Bool)
  | finite (negative : Bool) (quanta : Nat)
  deriving DecidableEq, Repr

/-- Quanta in one. -/
def unit : Nat := 1 <<< 1074

/-- The bit that tells a negative double from a positive one. -/
def signBit : Nat := 1 <<< 63

/-- The bits of positive infinity, the first that belong to no finite double. -/
def infinityBits : Nat := 2047 <<< 52

/-- Quanta of the positive double with the given bits. -/
def quantaOfBits (bits : Nat) : Nat :=
  let shift := bits >>> 52 - 1
  (bits - shift <<< 52) <<< shift

def parts (x : Float) : Parts :=
  let bits := x.toBits.toNat
  let negative := decide (signBit ≤ bits)
  let magnitude := bits % signBit
  if infinityBits < magnitude then .nan
  else if magnitude = infinityBits then .infinite negative
  else .finite negative (quantaOfBits magnitude)

/-- The double of a sign and the bits below it. -/
def ofBits (negative : Bool) (magnitude : Nat) : Float :=
  Float.ofBits (UInt64.ofNat (if negative then signBit + magnitude else magnitude))

def nan : Float := Float.ofBits 0x7ff8000000000000

def infinity (negative : Bool) : Float := ofBits negative infinityBits

/-! ## The nearest double -/

/-- A quotient rounded to the nearest whole number, a half to the even one. -/
def roundDiv (num den : Nat) : Nat :=
  let quotient := num / den
  let twice := 2 * (num % den)
  if twice < den then quotient
  else if den < twice then quotient + 1
  else quotient + quotient % 2

/-- The bits of the double nearest to `num / den` quanta, a tie going to the even significand. All
that rounds past the largest finite double is infinite. -/
def nearestBits (num den : Nat) : Nat :=
  let shift := (num / den).log2 - 52
  min (shift <<< 52 + roundDiv num (den <<< shift)) infinityBits

/-- The double nearest to `num / den` quanta. -/
def nearest (negative : Bool) (num den : Nat) : Float :=
  ofBits negative (nearestBits num den)

/-- The double of a whole number of quanta, rounded where there is none. -/
def ofQuanta (negative : Bool) (quanta : Nat) : Float := nearest negative quanta 1

/-! ## Laws -/

/-- A quotient differs from its rounded value by at most a half. -/
theorem roundDiv_bounds (num : Nat) {den : Nat} (h : 0 < den) :
    2 * num ≤ 2 * (den * roundDiv num den) + den ∧
      2 * (den * roundDiv num den) ≤ 2 * num + den := by
  have split := Nat.div_add_mod num den
  have bound := Nat.mod_lt num h
  have next : den * (num / den + 1) = den * (num / den) + den := Nat.mul_succ ..
  simp only [roundDiv]
  split
  · omega
  · split
    · omega
    · rcases Nat.mod_two_eq_zero_or_one (num / den) with e | e
      · rw [e, Nat.add_zero]
        omega
      · rw [e]
        omega

theorem roundDiv_one (n : Nat) : roundDiv n 1 = n := by
  simp [roundDiv, Nat.mod_one]

/-- No magnitude rounds past infinity. -/
theorem nearestBits_le (num den : Nat) : nearestBits num den ≤ infinityBits :=
  Nat.min_le_right ..

end Reckoner.Double
