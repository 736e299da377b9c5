import Reckoner.Proofs.Numeral
import Reckoner.Token.Tokenize

/-!
# Where a text may be cut

The scanner looks one character ahead and back to the start of an atom, so scanning a text is
scanning its parts if no digit follows the cut and the cut is before a symbol other than a sign or
after a symbol (`scan_append`). An atom of its own is scanned whole where the text ends or a symbol
follows: an identifier (`IsWord`, `scan_word_append`, `scan_append_word`) and a numeral, with the
sign in its exponent (`scan_numeral_append`).
-/

namespace Reckoner

/-- A name as an expression may spell it. -/
structure IsWord (name : String) : Prop where
  nonempty : name ≠ ""
  noBlank : ∀ c ∈ name.toList, Text.isBlank c = false
  noSymbol : ∀ c ∈ name.toList, isSymbol c = false
  noReserved : ∀ c ∈ name.toList, c ∉ reservedCharacters
  noNumeral : Numeral.ofChars? name.toList = none
  noMantissa : awaitsExponent name.toList = false

/-- The characters of a name are tested one by one, not all characters there are. -/
instance (name : String) : Decidable (IsWord name) :=
  decidable_of_iff (name ≠ "" ∧ name.toList.all (!Text.isBlank ·) = true ∧
      name.toList.all (!isSymbol ·) = true ∧
      name.toList.all (!reservedCharacters.contains ·) = true ∧
      Numeral.ofChars? name.toList = none ∧ awaitsExponent name.toList = false) <| by
    constructor
    · rintro ⟨h₁, h₂, h₃, h₄, h₅, h₆⟩
      exact ⟨h₁, by simpa using h₂, by simpa using h₃, by simpa using h₄, h₅, h₆⟩
    · rintro ⟨h₁, h₂, h₃, h₄, h₅, h₆⟩
      exact ⟨h₁, by simpa using h₂, by simpa using h₃, by simpa using h₄, h₅, h₆⟩

theorem IsWord.toList_ne_nil {name : String} (h : IsWord name) : name.toList ≠ [] :=
  fun hn => h.nonempty (String.toList_injective hn)

namespace Token

/-! ## Symbols -/

theorem isSymbol_iff {c : Char} : isSymbol c = true ↔ ∃ s, Symbol.ofChar? c = some s :=
  Option.isSome_iff_exists

theorem continuesAtom_of_isSign {atom rest : List Char} {c : Char} (h : isSign c = false) :
    continuesAtom atom c rest = false := by simp [continuesAtom, h]

theorem continuesAtom_of_head {atom rest : List Char} {c : Char}
    (h : ∀ d ∈ rest.head?, d.isDigit = false) : continuesAtom atom c rest = false := by
  have hany : rest.head?.any Char.isDigit = false := by
    cases hh : rest.head? with
    | none => rfl
    | some d => exact h d hh
  simp [continuesAtom, hany]

/-- Only the first of the characters ahead counts, and whether it is a digit. -/
theorem continuesAtom_append {atom xs ys : List Char} {c : Char}
    (h : ∀ d ∈ ys.head?, d.isDigit = false) :
    continuesAtom atom c (xs ++ ys) = continuesAtom atom c xs := by
  cases xs with
  | nil => rw [List.nil_append, continuesAtom_of_head h, continuesAtom_of_head (by simp)]
  | cons d xs => rfl

theorem scan_symbol_cons {c : Char} {s : Symbol} (h : Symbol.ofChar? c = some s)
    (rest : List Char) : scan (c :: rest) = .symbol s :: scan rest := by
  have hc : continuesAtom [] c rest = false := by
    simp [continuesAtom, awaitsExponent, Mantissa.read?]
  simp [scan, scanFrom, h, hc, flush]

/-- An atom ends where the text ends or a symbol follows that does not belong to it. -/
theorem scanFrom_of_end {atom rest : List Char}
    (h : ∀ c ∈ rest.head?, isSymbol c = true ∧ continuesAtom atom.reverse c rest.tail = false) :
    scanFrom atom rest = flush atom ++ scan rest := by
  cases rest with
  | nil => simp [scan, scanFrom, flush]
  | cons c rest =>
    obtain ⟨hs, hc⟩ := h c rfl
    obtain ⟨s, hs⟩ := isSymbol_iff.1 hs
    rw [scan_symbol_cons hs, scanFrom]
    simp only [hs]
    rw [List.tail_cons] at hc
    rw [hc]
    rfl

theorem scanFrom_append {atom xs ys : List Char} (hdigit : ∀ c ∈ ys.head?, c.isDigit = false)
    (hcut : (∀ c ∈ ys.head?, isSymbol c = true ∧ isSign c = false) ∨
      ∃ c ∈ xs.getLast?, isSymbol c = true) :
    scanFrom atom (xs ++ ys) = scanFrom atom xs ++ scan ys := by
  induction xs generalizing atom with
  | nil =>
    rcases hcut with hcut | ⟨c, hc, -⟩
    · refine scanFrom_of_end fun c hc => ⟨(hcut c hc).1, ?_⟩
      exact continuesAtom_of_isSign (hcut c hc).2
    · cases hc
  | cons d xs ih =>
    rw [List.cons_append, scanFrom, scanFrom]
    -- after a last symbol both sides start afresh, also where the cut is next
    have hlast : ∀ atom, (xs = [] → isSymbol d = true → atom = []) →
        scanFrom atom (xs ++ ys) = scanFrom atom xs ++ scan ys := by
      intro atom hatom
      rcases hcut with hcut | ⟨c, hc, hs⟩
      · exact ih (.inl hcut)
      · cases xs with
        | nil =>
          cases hc
          rw [hatom rfl hs]
          rfl
        | cons x xs => exact ih (.inr ⟨c, hc, hs⟩)
    cases hs : Symbol.ofChar? d with
    | none =>
      exact hlast _ fun _ hd => by simp [isSymbol, hs] at hd
    | some s =>
      simp only [continuesAtom_append hdigit]
      cases hc : continuesAtom atom.reverse d xs with
      | false =>
        simp only [Bool.false_eq_true, if_false, List.append_assoc, List.cons_append]
        rw [hlast [] fun _ _ => rfl]
      | true =>
        simp only [if_true]
        refine hlast _ fun hx _ => ?_
        subst hx
        simp [continuesAtom] at hc

/-- Scanning in two parts: no digit follows the cut, and it is before a symbol other than a sign or
after a symbol. -/
theorem scan_append {xs ys : List Char} (hdigit : ∀ c ∈ ys.head?, c.isDigit = false)
    (hcut : (∀ c ∈ ys.head?, isSymbol c = true ∧ isSign c = false) ∨
      ∃ c ∈ xs.getLast?, isSymbol c = true) :
    scan (xs ++ ys) = scan xs ++ scan ys :=
  scanFrom_append hdigit hcut

/-- A text may be cut at each symbol that is no sign. -/
theorem scan_append_symbol_cons {c : Char} {s : Symbol} (hs : Symbol.ofChar? c = some s)
    (hsign : isSign c = false) (xs ys : List Char) :
    scan (xs ++ c :: ys) = scan xs ++ .symbol s :: scan ys := by
  have hsym : isSymbol c = true := isSymbol_iff.2 ⟨s, hs⟩
  rw [scan_append, scan_symbol_cons hs]
  · intro d hd
    cases hd
    exact isDigit_of_isSymbol hsym
  · refine .inl fun d hd => ?_
    cases hd
    exact ⟨hsym, hsign⟩

/-! ## Atoms -/

/-- Characters stay together if all symbols among them belong to the atom. -/
theorem scanFrom_together {atom xs rest : List Char}
    (h : ∀ before c after, xs = before ++ c :: after → isSymbol c = true →
      continuesAtom (atom.reverse ++ before) c (after ++ rest) = true) :
    scanFrom atom (xs ++ rest) = scanFrom (xs.reverse ++ atom) rest := by
  induction xs generalizing atom with
  | nil => rfl
  | cons d xs ih =>
    have hxs : scanFrom (d :: atom) (xs ++ rest) = scanFrom (xs.reverse ++ d :: atom) rest := by
      refine ih fun before c after hsplit hc => ?_
      simpa using h (d :: before) c after (by rw [hsplit, List.cons_append]) hc
    rw [List.reverse_cons, List.append_assoc, List.singleton_append, ← hxs, List.cons_append,
      scanFrom]
    split
    · rfl
    · rename_i s hs
      have hd := h [] d xs rfl (isSymbol_iff.2 ⟨s, hs⟩)
      rw [List.append_nil] at hd
      rw [if_pos hd]

theorem scanFrom_plain {xs : List Char} (h : ∀ c ∈ xs, isSymbol c = false) (atom rest : List Char) :
    scanFrom atom (xs ++ rest) = scanFrom (xs.reverse ++ atom) rest := by
  refine scanFrom_together ?_
  rintro before c after rfl hc
  rw [h c (by simp)] at hc
  cases hc

/-- An atom is over at a symbol if it does not wait for an exponent. -/
theorem scanFrom_of_complete {atom rest : List Char} (hatom : awaitsExponent atom.reverse = false)
    (hrest : ∀ c ∈ rest.head?, isSymbol c = true) :
    scanFrom atom rest = flush atom ++ scan rest :=
  scanFrom_of_end fun c hc => ⟨hrest c hc, by simp [continuesAtom, hatom]⟩

theorem flush_reverse {cs : List Char} (h : cs ≠ []) : flush cs.reverse = [ofAtom cs] := by
  simp [flush, h]

theorem scan_word_append {name : String} (h : IsWord name) {rest : List Char}
    (hrest : ∀ c ∈ rest.head?, isSymbol c = true) :
    scan (name.toList ++ rest) = .identifier name :: scan rest := by
  rw [scan, scanFrom_plain h.noSymbol, List.append_nil,
    scanFrom_of_complete (by simpa using h.noMantissa) hrest, flush_reverse h.toList_ne_nil]
  simp [ofAtom, h.noNumeral]

/-- A word between symbols is an identifier, unless a digit that it begins with belongs to an
exponent before it. -/
theorem scan_append_word {name : String} (h : IsWord name) {xs ys : List Char}
    (hdigit : xs ≠ [] → ∀ c ∈ name.toList.head?, c.isDigit = false)
    (hxs : ∀ c ∈ xs.getLast?, isSymbol c = true) (hys : ∀ c ∈ ys.head?, isSymbol c = true) :
    scan (xs ++ name.toList ++ ys) = scan xs ++ .identifier name :: scan ys := by
  rw [List.append_assoc, ← scan_word_append h hys]
  cases hl : xs.getLast? with
  | none =>
    rw [List.getLast?_eq_none_iff.1 hl]
    rfl
  | some c =>
    refine scan_append (fun d hd => ?_) (.inr ⟨c, hl, hxs c hl⟩)
    have hne : xs ≠ [] := by
      rintro rfl
      cases hl
    obtain ⟨e, hh⟩ := Option.isSome_iff_exists.1 (List.isSome_head?.2 h.toList_ne_nil)
    rw [List.head?_append, hh] at hd
    exact hdigit hne d (hh.trans hd)

/-- The characters of a numeral stay together, a sign in the exponent included. -/
theorem scanFrom_numeral {n : Numeral} (h : n.IsProper) (rest : List Char) :
    scanFrom [] (n.toChars ++ rest) = scanFrom n.toChars.reverse rest := by
  obtain ⟨m, exponent⟩ := n
  cases exponent with
  | none => simpa [Numeral.toChars] using scanFrom_plain h.mantissa.isSymbol [] rest
  | some e =>
    obtain ⟨mark, sign, digits⟩ := e
    have he : Exponent.IsProper ⟨mark, sign, digits⟩ := h.exponent _ rfl
    have hmark : ∀ c ∈ m.toChars ++ [mark], isSymbol c = false := by
      simp only [List.mem_append, List.mem_singleton]
      rintro c (hc | rfl)
      · exact h.mantissa.isSymbol c hc
      · exact isSymbol_of_isExponentMark he.mark
    have hdigits : ∀ c ∈ digits, isSymbol c = false := fun c hc =>
      isSymbol_of_isDigit (he.digits c hc)
    cases sign with
    | none =>
      have hsplit : Numeral.toChars ⟨m, some ⟨mark, none, digits⟩⟩ =
          (m.toChars ++ [mark]) ++ digits := by
        simp [Numeral.toChars, Exponent.toChars]
      rw [hsplit, List.append_assoc, scanFrom_plain hmark, scanFrom_plain hdigits]
      simp
    | some c =>
      have hsplit : Numeral.toChars ⟨m, some ⟨mark, some c, digits⟩⟩ =
          (m.toChars ++ [mark]) ++ c :: digits := by
        simp [Numeral.toChars, Exponent.toChars]
      have hsign : isSign c = true := he.sign c rfl
      obtain ⟨s, hs⟩ := isSymbol_iff.1 (isSymbol_of_isSign hsign)
      have hhead : (digits ++ rest).head?.any Char.isDigit = true := by
        cases digits with
        | nil => exact absurd rfl he.nonempty
        | cons d digits => simpa using he.digits d (by simp)
      -- the sign comes after the mark of an exponent and before a digit, so the atom goes on
      have hcont : continuesAtom (m.toChars ++ [mark]) c (digits ++ rest) = true := by
        rw [continuesAtom, hsign, hhead, awaitsExponent_mantissa h.mantissa he.mark]
        rfl
      rw [hsplit, List.append_assoc, scanFrom_plain hmark, List.cons_append, scanFrom, hs]
      simp only [List.append_nil, List.reverse_reverse, hcont, if_true]
      rw [scanFrom_plain hdigits]
      simp

theorem scan_numeral_append {n : Numeral} (h : n.IsProper) {rest : List Char}
    (hrest : ∀ c ∈ rest.head?, isSymbol c = true) :
    scan (n.toChars ++ rest) = .number n :: scan rest := by
  have hread := Numeral.ofChars?_toChars h
  have hne : n.toChars ≠ [] := by
    intro hn
    rw [hn] at hread
    cases hread
  -- a numeral does not wait for an exponent, so the symbol after it cannot belong to it
  rw [scan, scanFrom_numeral h, scanFrom_of_complete
    (by simpa using Numeral.awaitsExponent_toChars h) hrest, flush_reverse hne]
  simp [ofAtom, hread]

end Token

end Reckoner
