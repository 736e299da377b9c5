import Reckoner.Decimal.Shortest

/-!
# Text of a double

The shortest digits of a double, laid out with a decimal point among them or with a power of ten
after them. A `Layout` holds what the two texts of the calculator decide differently.
-/

namespace Reckoner.Decimal

structure Layout where
  /-- The least exponent of the leading digit that is written without a power of ten; `none` where
  small numbers never have one. -/
  leastPlain : Option Int
  /-- The least exponent of the leading digit that is large enough for a power of ten. -/
  leastScientific : Int
  /-- What follows the digits of a whole number. -/
  wholeMark : String

/-- The text by which a double is kept and read back: a whole number has one decimal place, and a
power of ten is written below `0.0001` and from `10 ^ 16` on. -/
def Layout.exact : Layout := ⟨some (-4), 16, ".0"⟩

/-- The text shown to a reader: no trailing point, and a power of ten from `10 ^ 15` on only. -/
def Layout.display : Layout := ⟨none, 15, ""⟩

/-- A sign and at least two digits. -/
def exponentText (e : Int) : String :=
  let digits := toString e.natAbs
  (if e < 0 then "-" else "+") ++ (if digits.length < 2 then "0" ++ digits else digits)

/-- The significand, with a point after its first digit, and a power of ten: `d.ddde±xx`. -/
def scientificText (digits : List Char) (e : Int) : String :=
  match digits with
  | [] => ""
  | [d] => String.ofList [d] ++ "e" ++ exponentText e
  | d :: rest => String.ofList (d :: '.' :: rest) ++ "e" ++ exponentText e

/-- The digits with a point after the first `e + 1` of them, and zeros where digits are missing. -/
def plainText (wholeMark : String) (digits : List Char) (e : Int) : String :=
  if e < 0 then
    "0." ++ String.ofList (List.replicate (-e - 1).toNat '0' ++ digits)
  else
    let whole := e.toNat + 1
    if digits.length ≤ whole then
      String.ofList (digits ++ List.replicate (whole - digits.length) '0') ++ wholeMark
    else
      String.ofList (digits.take whole ++ '.' :: digits.drop whole)

def Layout.render (l : Layout) (d : Decimal) : String :=
  let digits := Nat.toDigits 10 d.digits
  let leading : Int := d.exponent + digits.length - 1
  if l.leastPlain.all (· ≤ leading) && leading < l.leastScientific then
    plainText l.wholeMark digits leading
  else
    scientificText digits leading

def Layout.text (l : Layout) (x : Float) : String :=
  match Double.parts x with
  | .nan => "nan"
  | .infinite negative => if negative then "-inf" else "inf"
  | .finite negative quanta => (if negative then "-" else "") ++ l.render (shortest quanta)

end Reckoner.Decimal

namespace Reckoner.Double

/-- The shortest text that reads back as the same double. -/
def exactText (x : Float) : String := Decimal.Layout.exact.text x

end Reckoner.Double
