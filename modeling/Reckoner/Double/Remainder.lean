import Reckoner.Double.Basic

/-!
# The exact remainder

`remainder x y` is `x - n * y`, where `n` is the whole number nearest to `x / y`, the even one on a
tie. It is at most half of `y` in size and a multiple of the finer quantum of the two, so it is a
double and nothing is rounded.
-/

namespace Reckoner.Double

/-- Quanta of the remainder of two magnitudes: negative where the quotient was rounded up. -/
def remainderQuanta (x y : Nat) : Int := (x : Int) - (roundDiv x y : Int) * y

/-- A zero remainder has the sign of `x`. An infinite `y` leaves a finite `x` as it is; there is no
remainder by zero or of an infinity. -/
def remainder (x y : Float) : Float :=
  match parts x, parts y with
  | .finite _ _, .infinite _ => x
  | .finite negative a, .finite _ b =>
    if b = 0 then nan
    else
      let rest := remainderQuanta a b
      ofQuanta (negative != decide (rest < 0)) rest.natAbs
  | _, _ => nan

end Reckoner.Double
