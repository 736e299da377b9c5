import Reckoner.Decimal.Shortest
import Reckoner.Text.Digit

/-!
# Numerals

A numeral is a mantissa, `12`, `1.5`, `1.` or `.5`, with an optional exponent, `e-3` or `E7`. It is
kept in its parts, so that its characters and its value are both functions of it.
-/

namespace Reckoner

structure Mantissa where
  whole : List Char
  /-- The digits after the point; `none` where there is no point. -/
  fraction : Option (List Char)
  deriving DecidableEq, Repr

structure Exponent where
  /-- Either `e` or `E`. -/
  mark : Char
  sign : Option Char
  digits : List Char
  deriving DecidableEq, Repr

structure Numeral where
  mantissa : Mantissa
  exponent : Option Exponent
  deriving DecidableEq, Repr

def isExponentMark (c : Char) : Bool := c == 'e' || c == 'E'

def isSign (c : Char) : Bool := c == '+' || c == '-'

namespace Mantissa

def toChars (m : Mantissa) : List Char :=
  m.whole ++ (match m.fraction with
    | some digits => '.' :: digits
    | none => [])

/-- Splits off the longest mantissa, which has at least one digit. -/
def read? (cs : List Char) : Option (Mantissa × List Char) :=
  let whole := cs.takeWhile Char.isDigit
  match cs.dropWhile Char.isDigit with
  | '.' :: rest =>
    let fraction := rest.takeWhile Char.isDigit
    if whole.isEmpty && fraction.isEmpty then none
    else some (⟨whole, some fraction⟩, rest.dropWhile Char.isDigit)
  | rest => if whole.isEmpty then none else some (⟨whole, none⟩, rest)

theorem toChars_append_of_read? {cs rest : List Char} {m : Mantissa}
    (h : read? cs = some (m, rest)) : m.toChars ++ rest = cs := by
  have whole := List.takeWhile_append_dropWhile (p := Char.isDigit) (l := cs)
  simp only [read?] at h
  split at h
  · rename_i tail e
    split at h
    · cases h
    · cases h
      simp only [toChars, List.append_assoc, List.cons_append, List.takeWhile_append_dropWhile]
      rw [← e, whole]
  · split at h
    · cases h
    · cases h
      simp [toChars]

end Mantissa

namespace Exponent

def toChars (e : Exponent) : List Char := e.mark :: e.sign.toList ++ e.digits

/-- Splits off a sign, if there is one. -/
def splitSign (cs : List Char) : Option Char × List Char :=
  match cs with
  | [] => (none, [])
  | c :: rest => if isSign c then (some c, rest) else (none, cs)

def ofChars? : List Char → Option Exponent
  | [] => none
  | mark :: rest =>
    let e : Exponent := ⟨mark, (splitSign rest).1, (splitSign rest).2⟩
    if isExponentMark mark && !e.digits.isEmpty && e.digits.all Char.isDigit then some e else none

def value (e : Exponent) : Int :=
  let size : Int := Text.ofAsciiDigits e.digits
  if e.sign == some '-' then -size else size

theorem toList_append_splitSign (cs : List Char) :
    (splitSign cs).1.toList ++ (splitSign cs).2 = cs := by
  unfold splitSign
  split
  · rfl
  · split <;> rfl

theorem toChars_of_ofChars? {cs : List Char} {e : Exponent} (h : ofChars? cs = some e) :
    e.toChars = cs := by
  cases cs with
  | nil => cases h
  | cons mark rest =>
    simp only [ofChars?] at h
    split at h
    · cases h
      simp [toChars, toList_append_splitSign]
    · cases h

end Exponent

namespace Numeral

def toChars (n : Numeral) : List Char :=
  n.mantissa.toChars ++ (match n.exponent with
    | some e => e.toChars
    | none => [])

def text (n : Numeral) : String := String.ofList n.toChars

/-- The numeral that all of the characters spell. -/
def ofChars? (cs : List Char) : Option Numeral :=
  match Mantissa.read? cs with
  | none => none
  | some (mantissa, []) => some ⟨mantissa, none⟩
  | some (mantissa, rest) => (Exponent.ofChars? rest).map fun e => ⟨mantissa, some e⟩

def toDecimal (n : Numeral) : Decimal :=
  let fraction := n.mantissa.fraction.getD []
  { digits := Text.ofAsciiDigits (n.mantissa.whole ++ fraction)
    exponent := (n.exponent.map Exponent.value).getD 0 - fraction.length }

/-- The double nearest to the numeral. -/
def value (n : Numeral) : Float := n.toDecimal.toDouble false

/-- A numeral keeps every character it was read from. -/
theorem toChars_of_ofChars? {cs : List Char} {n : Numeral} (h : ofChars? cs = some n) :
    n.toChars = cs := by
  unfold ofChars? at h
  split at h
  · cases h
  · rename_i m e
    cases h
    simpa [toChars] using Mantissa.toChars_append_of_read? e
  · rename_i m rest _ e
    obtain ⟨x, hx, rfl⟩ := Option.map_eq_some_iff.1 h
    rw [← Mantissa.toChars_append_of_read? e, ← Exponent.toChars_of_ofChars? hx]
    rfl

end Numeral

/-- A mantissa and an exponent mark, and nothing after it: a sign that follows may belong to the
exponent. -/
def awaitsExponent (cs : List Char) : Bool :=
  match Mantissa.read? cs with
  | some (_, [mark]) => isExponentMark mark
  | _ => false

end Reckoner
