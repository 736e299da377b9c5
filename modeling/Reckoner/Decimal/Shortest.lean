import Reckoner.Double.Basic

/-!
# Decimals and the doubles they stand for

A decimal reads as the double nearest to it, and a double is written with the fewest digits that
read back.

A double stands for every real number that rounds to it. Among the decimals in that interval the
shortest lies on the coarsest decimal grid `10 ^ e` that meets the interval, and of that grid's
points the one nearest to the double is taken, or, of two equally near, the one with the even last
digit. Only the two neighbours of the double on a grid need a test: a grid that meets the interval
has one of them in it.
-/

namespace Reckoner

/-- The number `digits * 10 ^ exponent`. -/
structure Decimal where
  digits : Nat
  exponent : Int
  deriving DecidableEq, Repr

namespace Decimal

/-- The numbers that round to one double, in quarters of a quantum. -/
structure Interval where
  low : Nat
  high : Nat
  /-- Whether the two ends round to the double as well. -/
  closed : Bool
  deriving DecidableEq, Repr

/-- The interval around a positive double. Below a power of two the doubles lie twice as dense as
above it. -/
def Interval.around (quanta : Nat) : Interval :=
  let shift := quanta.log2 - 52
  let below := if quanta = 1 <<< (52 + shift) ∧ 0 < shift then 1 <<< shift else 2 <<< shift
  { low := 4 * quanta - below
    high := 4 * quanta + 2 <<< shift
    closed := quanta >>> shift % 2 == 0 }

/-- Whether `num / den` quarters of a quantum lie in the interval. -/
def Interval.contains (i : Interval) (num den : Nat) : Bool :=
  if i.closed then i.low * den ≤ num && num ≤ i.high * den
  else i.low * den < num && num < i.high * den

/-- Of the two neighbours of the double on the grid `10 ^ exponent`, the nearer that lies in the
interval, if one does. -/
def onGrid? (quanta : Nat) (i : Interval) (exponent : Int) : Option Decimal :=
  let step := Nat.pow 10 exponent.toNat * (4 * Double.unit)
  let scale := Nat.pow 10 (-exponent).toNat
  let lower := 4 * quanta * scale / step
  let gap := 4 * quanta * scale % step
  let lowerFits := i.contains (lower * step) scale
  let upperFits := i.contains ((lower + 1) * step) scale
  let lowerNearer := 2 * gap < step || (2 * gap == step && lower % 2 == 0)
  if lowerFits && (!upperFits || lowerNearer) then some ⟨lower, exponent⟩
  else if upperFits then some ⟨lower + 1, exponent⟩
  else none

/-- A decimal exponent whose power of ten is larger than the double. -/
def exponentBound (quanta : Nat) : Int :=
  let bits : Int := quanta.log2 - 1072
  if 0 ≤ bits then bits * 31 / 100 + 1 else -(-bits * 3 / 10)

/-- The first hit on the grids from `10 ^ (steps - 1074)` down. Every double is itself a point of
the last grid. -/
def coarsest (quanta : Nat) (i : Interval) : (steps : Nat) → Decimal
  | 0 => ⟨quanta * Nat.pow 5 1074, -1074⟩
  | steps + 1 =>
    match onGrid? quanta i (steps + 1 - 1074) with
    | some d => d
    | none => coarsest quanta i steps

/-- The shortest decimal that reads back as the double of the given quanta. -/
def shortest (quanta : Nat) : Decimal :=
  if quanta = 0 then ⟨0, 0⟩
  else coarsest quanta (.around quanta) (exponentBound quanta + 1074).toNat

/-! ## Reading back -/

/-- The nearest double, with the given sign. A decimal from `10 ^ 309` on is infinite and one below
`10 ^ -324` is zero; only what lies between is worked out, so that an exponent of any length costs
nothing. -/
def toDouble (negative : Bool) (d : Decimal) : Float :=
  if d.digits = 0 ∨ d.exponent + d.digits.log2 + 1 ≤ -324 then Double.ofQuanta negative 0
  else if 309 ≤ d.exponent then Double.infinity negative
  else
    Double.nearest negative (d.digits * Nat.pow 10 d.exponent.toNat * Double.unit)
      (Nat.pow 10 (-d.exponent).toNat)

end Decimal

end Reckoner
