import Reckoner.Double.Basic

/-!
# Whole numbers near a double

The four ways to round a double to a whole number. Each keeps the sign, also of a zero, and leaves
what is not finite as it is. Rounding to decimal places scales by a power of ten before and after,
and a factorial goes through the whole numbers up to its operand.
-/

namespace Reckoner.Double

/-- Replaces the magnitude by a whole number, found from the sign and the quanta. -/
def mapWhole (round : Bool → Nat → Nat) (x : Float) : Float :=
  match parts x with
  | .finite negative quanta => ofQuanta negative (round negative quanta * unit)
  | _ => x

/-- A quotient rounded up. -/
def ceilDiv (num den : Nat) : Nat := (num + (den - 1)) / den

def trunc : Float → Float :=
  mapWhole fun _ quanta => quanta / unit

def floor : Float → Float :=
  mapWhole fun negative quanta => if negative then ceilDiv quanta unit else quanta / unit

def ceiling : Float → Float :=
  mapWhole fun negative quanta => if negative then quanta / unit else ceilDiv quanta unit

/-- The nearest whole number, a half going to the even one. -/
def roundEven : Float → Float :=
  mapWhole fun _ quanta => roundDiv quanta unit

/-- True of infinities too, and false of the value that is not a number. -/
def isWhole (x : Float) : Bool := x == floor x

/-- The whole part of a finite double. -/
def toInt? (x : Float) : Option Int :=
  match parts x with
  | .finite negative quanta =>
    some (if negative then -((quanta / unit : Nat) : Int) else ((quanta / unit : Nat) : Int))
  | _ => none

/-! ## Decimal places -/

/-- The power `10 ^ n` as a product of doubles: exact up to 22, infinite from 309 on. -/
def tenPower (n : Nat) : Float := (min n 309).repeat (· * 10) 1

/-- Rounds to `places` decimal places, or, below zero, to a multiple of a power of ten. Scaling
rounds to a double each time, so the scaled value may overflow. -/
def roundPlaces (x : Float) : (places : Int) → Float
  | .ofNat n => roundEven (x * tenPower n) / tenPower n
  | .negSucc n => roundEven (x / tenPower (n + 1)) * tenPower (n + 1)

/-! ## Factorials -/

/-- The product of `result` and the next `count` whole numbers from `next` on, rounded after each
factor. Once the product is infinite the other factors cannot change it. -/
def risingProduct (result : Float) (next : Nat) : (count : Nat) → Float
  | 0 => result
  | count + 1 =>
    let product := result * Float.ofNat next
    if product.isInf then product else risingProduct product (next + 1) count

/-- The product `1 * 2 * … * n`, where `n` is the whole part of `x`; one where `n` is not positive.
There is none for the value that is not a number. -/
def factorial? (x : Float) : Option Float :=
  match parts x with
  | .nan => none
  | .infinite negative => some (if negative then 1 else x)
  | .finite true _ => some 1
  | .finite false quanta => some (risingProduct 1 1 (quanta / unit))

end Reckoner.Double
