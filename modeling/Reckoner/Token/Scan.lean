import Reckoner.Token.Basic

/-!
# Scanning

A text without blanks is cut into symbols, one character each, and atoms, the runs between them. A
sign stays inside an atom where it belongs to an exponent: after a mantissa with its mark, and
before a digit.
-/

namespace Reckoner.Token

/-- A numeral if the characters spell one, an identifier otherwise. -/
def ofAtom (cs : List Char) : Token :=
  match Numeral.ofChars? cs with
  | some n => .number n
  | none => .identifier (String.ofList cs)

/-- Whether a symbol character belongs to the atom before it. -/
def continuesAtom (atom : List Char) (c : Char) (rest : List Char) : Bool :=
  isSign c && rest.head?.any Char.isDigit && awaitsExponent atom

/-- The token of the atom read so far, if it is not empty; `atom` holds its characters from the last
one back. -/
def flush (atom : List Char) : List Token :=
  if atom.isEmpty then [] else [ofAtom atom.reverse]

def scanFrom (atom : List Char) : List Char → List Token
  | [] => flush atom
  | c :: rest =>
    match Symbol.ofChar? c with
    | none => scanFrom (c :: atom) rest
    | some s =>
      if continuesAtom atom.reverse c rest then scanFrom (c :: atom) rest
      else flush atom ++ .symbol s :: scanFrom [] rest

def scan (cs : List Char) : List Token := scanFrom [] cs

/-! ## Nothing is lost -/

theorem text_ofAtom (cs : List Char) : (ofAtom cs).text = String.ofList cs := by
  unfold ofAtom
  split
  · rename_i n h
    rw [← Numeral.toChars_of_ofChars? h]
    rfl
  · rfl

theorem flatMap_text_flush (atom : List Char) :
    (flush atom).flatMap (·.text.toList) = atom.reverse := by
  unfold flush
  split
  · simp_all
  · simp [text_ofAtom]

theorem flatMap_text_scanFrom (atom cs : List Char) :
    (scanFrom atom cs).flatMap (·.text.toList) = atom.reverse ++ cs := by
  induction cs generalizing atom with
  | nil => simp [scanFrom, flatMap_text_flush]
  | cons c rest ih =>
    unfold scanFrom
    split
    · simp [ih]
    · rename_i s h
      split
      · simp [ih]
      · rw [List.flatMap_append, flatMap_text_flush, List.flatMap_cons, ih]
        simp [text, Symbol.text_of_ofChar? h]

/-- The texts of the tokens, one after the other, are the text that was scanned. -/
theorem flatMap_text_scan (cs : List Char) : (scan cs).flatMap (·.text.toList) = cs := by
  simp [scan, flatMap_text_scanFrom]

end Reckoner.Token
