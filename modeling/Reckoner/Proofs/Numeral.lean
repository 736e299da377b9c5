import Mathlib.Data.List.TakeWhile
import Reckoner.Numeral
import Reckoner.Token.Basic

/-!
# The grammar of numerals

`Numeral.IsProper` is the grammar: digits with an optional point among or around them, at least one
digit, and an optional exponent of a mark, an optional sign and at least one digit.

* `Numeral.ofChars?_eq_some_iff`: what reads as a numeral is the text of exactly one proper numeral.
* `Numeral.awaitsExponent_toChars`: a proper numeral leaves no exponent open.
-/

namespace Reckoner

/-! ## Characters -/

theorem isDigit_of_isSymbol {c : Char} (h : isSymbol c = true) : c.isDigit = false := by
  unfold isSymbol Symbol.ofChar? at h
  split at h <;> first | decide | cases h

theorem isSymbol_of_isDigit {c : Char} (h : c.isDigit = true) : isSymbol c = false := by
  cases hs : isSymbol c with
  | false => rfl
  | true => simp [isDigit_of_isSymbol hs] at h

theorem isSymbol_of_isSign {c : Char} (h : isSign c = true) : isSymbol c = true := by
  simp only [isSign, Bool.or_eq_true, beq_iff_eq] at h
  rcases h with rfl | rfl <;> rfl

theorem isDigit_of_isSign {c : Char} (h : isSign c = true) : c.isDigit = false :=
  isDigit_of_isSymbol (isSymbol_of_isSign h)

theorem isExponentMark_iff {c : Char} : isExponentMark c = true ↔ c = 'e' ∨ c = 'E' := by
  simp [isExponentMark]

theorem isDigit_of_isExponentMark {c : Char} (h : isExponentMark c = true) : c.isDigit = false := by
  rcases isExponentMark_iff.1 h with rfl | rfl <;> decide

theorem isSymbol_of_isExponentMark {c : Char} (h : isExponentMark c = true) :
    isSymbol c = false := by
  rcases isExponentMark_iff.1 h with rfl | rfl <;> rfl

theorem ne_point_of_isExponentMark {c : Char} (h : isExponentMark c = true) : c ≠ '.' := by
  rcases isExponentMark_iff.1 h with rfl | rfl <;> decide

/-! ## Mantissas -/

namespace Mantissa

structure IsProper (m : Mantissa) : Prop where
  whole : ∀ c ∈ m.whole, c.isDigit = true
  fraction : ∀ c ∈ m.fraction.getD [], c.isDigit = true
  nonempty : m.whole ≠ [] ∨ m.fraction.getD [] ≠ []

theorem IsProper.of_mem_toChars {m : Mantissa} (h : m.IsProper) {c : Char} (hc : c ∈ m.toChars) :
    c.isDigit = true ∨ c = '.' := by
  obtain ⟨whole, fraction⟩ := m
  cases fraction with
  | none => exact .inl (h.whole c (by simpa [toChars] using hc))
  | some digits =>
    simp only [toChars, List.mem_append, List.mem_cons] at hc
    rcases hc with hc | rfl | hc
    · exact .inl (h.whole c hc)
    · exact .inr rfl
    · exact .inl (h.fraction c hc)

theorem IsProper.isSymbol {m : Mantissa} (h : m.IsProper) :
    ∀ c ∈ m.toChars, isSymbol c = false := by
  intro c hc
  rcases h.of_mem_toChars hc with hd | rfl
  · exact isSymbol_of_isDigit hd
  · rfl

/-- What follows a mantissa does not make it longer. -/
def Ends (m : Mantissa) (rest : List Char) : Prop :=
  ∀ c ∈ rest.head?, c.isDigit = false ∧ (m.fraction = none → c ≠ '.')

theorem dropWhile_head {p : Char → Bool} {l : List Char} (h : ∀ c ∈ l.head?, p c = false) :
    l.dropWhile p = l := by
  cases l with
  | nil => rfl
  | cons c l => exact List.dropWhile_cons_of_neg (by simp [h c rfl])

theorem takeWhile_head {p : Char → Bool} {l : List Char} (h : ∀ c ∈ l.head?, p c = false) :
    l.takeWhile p = [] := by
  cases l with
  | nil => rfl
  | cons c l => exact List.takeWhile_cons_of_neg (by simp [h c rfl])

theorem read?_toChars_append {m : Mantissa} {rest : List Char} (h : m.IsProper)
    (hr : m.Ends rest) : read? (m.toChars ++ rest) = some (m, rest) := by
  obtain ⟨whole, fraction⟩ := m
  cases fraction with
  | none =>
    have hd : ∀ c ∈ rest.head?, c.isDigit = false := fun c hc => (hr c hc).1
    have hw : whole ≠ [] := h.nonempty.resolve_right (by simp)
    simp only [read?, toChars, List.append_nil, List.takeWhile_append_of_pos h.whole,
      List.dropWhile_append_of_pos h.whole, takeWhile_head hd, dropWhile_head hd]
    split
    · rename_i tail _
      exact absurd rfl ((hr '.' rfl).2 rfl)
    · simp [hw]
  | some digits =>
    have hd : ∀ c ∈ rest.head?, c.isDigit = false := fun c hc => (hr c hc).1
    have hp : ('.' : Char).isDigit = false := by decide
    have hf : ∀ c ∈ digits, c.isDigit = true := h.fraction
    have hne : ¬ (whole = [] ∧ digits = []) := fun hn =>
      h.nonempty.elim (fun hw => hw hn.1) fun hf => hf hn.2
    simp only [read?, toChars, List.append_assoc, List.takeWhile_append_of_pos h.whole,
      List.dropWhile_append_of_pos h.whole, List.cons_append, List.takeWhile_cons,
      List.dropWhile_cons, hp, Bool.false_eq_true, if_false, List.append_nil,
      List.takeWhile_append_of_pos hf, List.dropWhile_append_of_pos hf, takeWhile_head hd,
      dropWhile_head hd]
    simp [hne]

theorem dropWhile_isDigit_head {l : List Char} : ∀ c ∈ (l.dropWhile Char.isDigit).head?,
    c.isDigit = false := by
  intro c hc
  have := List.head?_dropWhile_not Char.isDigit l
  rw [Option.mem_def.1 hc] at this
  simpa using this

theorem isProper_of_read? {cs rest : List Char} {m : Mantissa} (h : read? cs = some (m, rest)) :
    m.IsProper ∧ m.Ends rest := by
  have hw : ∀ c ∈ cs.takeWhile Char.isDigit, c.isDigit = true := fun c hc =>
    (List.mem_takeWhile_imp hc)
  simp only [read?] at h
  split at h
  · rename_i tail _
    split at h
    · cases h
    · rename_i hne
      cases h
      refine ⟨⟨hw, fun c hc => List.mem_takeWhile_imp hc, ?_⟩, fun c hc =>
        ⟨dropWhile_isDigit_head c hc, by simp⟩⟩
      simpa [Decidable.or_iff_not_not_and_not] using hne
  · rename_i hpoint
    split at h
    · cases h
    · rename_i hne
      cases h
      refine ⟨⟨hw, by simp, .inl (by simpa using hne)⟩, fun c hc =>
        ⟨dropWhile_isDigit_head c hc, fun _ hp => ?_⟩⟩
      obtain ⟨tail, ht⟩ := List.head?_eq_some_iff.1 hc
      exact hpoint tail (hp ▸ ht)

end Mantissa

/-! ## Exponents -/

namespace Exponent

structure IsProper (e : Exponent) : Prop where
  mark : isExponentMark e.mark = true
  sign : ∀ c ∈ e.sign, isSign c = true
  digits : ∀ c ∈ e.digits, c.isDigit = true
  nonempty : e.digits ≠ []

theorem ofChars?_toChars {e : Exponent} (h : e.IsProper) : ofChars? e.toChars = some e := by
  obtain ⟨mark, sign, digits⟩ := e
  have hs : splitSign (sign.toList ++ digits) = (sign, digits) := by
    cases sign with
    | some c => simp [splitSign, h.sign c rfl]
    | none =>
      cases digits with
      | nil => exact absurd rfl h.nonempty
      | cons d digits =>
        have hd : isSign d = false := by
          cases hs : isSign d with
          | false => rfl
          | true => simpa [isDigit_of_isSign hs] using h.digits d (by simp)
        simp [splitSign, hd]
  have hall : digits.all Char.isDigit = true := List.all_eq_true.2 h.digits
  have hne : digits.isEmpty = false := by simpa using h.nonempty
  simp [ofChars?, toChars, hs, h.mark, hall, hne]

theorem isProper_of_ofChars? {cs : List Char} {e : Exponent} (h : ofChars? cs = some e) :
    e.IsProper := by
  cases cs with
  | nil => cases h
  | cons mark rest =>
    simp only [ofChars?] at h
    split at h
    · rename_i hc
      cases h
      simp only [Bool.and_eq_true, Bool.not_eq_true', List.isEmpty_eq_false_iff,
        List.all_eq_true] at hc
      refine ⟨hc.1.1, fun c hs => ?_, hc.2, hc.1.2⟩
      unfold splitSign at hs
      split at hs
      · cases hs
      · split at hs
        · rename_i hsign
          cases hs
          exact hsign
        · cases hs
    · cases h

/-- An exponent begins with its mark, so it makes no mantissa before it longer. -/
theorem IsProper.ends {e : Exponent} (h : e.IsProper) (m : Mantissa) (rest : List Char) :
    m.Ends (e.toChars ++ rest) := by
  intro c hc
  cases hc
  exact ⟨isDigit_of_isExponentMark h.mark, fun _ => ne_point_of_isExponentMark h.mark⟩

end Exponent

/-! ## Numerals -/

namespace Numeral

structure IsProper (n : Numeral) : Prop where
  mantissa : n.mantissa.IsProper
  exponent : ∀ e ∈ n.exponent, e.IsProper

theorem IsProper.of_mem_toChars {n : Numeral} (h : n.IsProper) {c : Char} (hc : c ∈ n.toChars) :
    c.isDigit = true ∨ c = '.' ∨ isExponentMark c = true ∨ isSign c = true := by
  obtain ⟨m, exponent⟩ := n
  rcases List.mem_append.1 hc with hc | hc
  · exact (h.mantissa.of_mem_toChars hc).imp_right .inl
  · cases exponent with
    | none => cases hc
    | some e =>
      have he := h.exponent e rfl
      simp only [Exponent.toChars, List.cons_append, List.mem_cons, List.mem_append,
        Option.mem_toList] at hc
      rcases hc with rfl | hc | hc
      · exact .inr (.inr (.inl he.mark))
      · exact .inr (.inr (.inr (he.sign c hc)))
      · exact .inl (he.digits c hc)

theorem ofChars?_toChars {n : Numeral} (h : n.IsProper) : ofChars? n.toChars = some n := by
  obtain ⟨m, exponent⟩ := n
  cases exponent with
  | none =>
    have hends : m.Ends [] := by simp [Mantissa.Ends]
    have hr := Mantissa.read?_toChars_append h.mantissa hends
    simp only [List.append_nil] at hr
    simp [ofChars?, toChars, hr]
  | some e =>
    have he : e.IsProper := h.exponent e rfl
    have hends : m.Ends e.toChars := by simpa using he.ends m []
    simp only [ofChars?, toChars, Mantissa.read?_toChars_append h.mantissa hends]
    change (Exponent.ofChars? e.toChars).map _ = _
    rw [Exponent.ofChars?_toChars he]
    rfl

theorem isProper_of_ofChars? {cs : List Char} {n : Numeral} (h : ofChars? cs = some n) :
    n.IsProper := by
  unfold ofChars? at h
  split at h
  · cases h
  · rename_i m hm
    cases h
    exact ⟨(Mantissa.isProper_of_read? hm).1, by simp⟩
  · rename_i m rest _ hm
    obtain ⟨e, he, rfl⟩ := Option.map_eq_some_iff.1 h
    refine ⟨(Mantissa.isProper_of_read? hm).1, fun x hx => ?_⟩
    cases hx
    exact Exponent.isProper_of_ofChars? he

/-- What reads as a numeral is the text of a proper one. -/
theorem ofChars?_eq_some_iff {cs : List Char} {n : Numeral} :
    ofChars? cs = some n ↔ n.IsProper ∧ n.toChars = cs := by
  constructor
  · exact fun h => ⟨isProper_of_ofChars? h, toChars_of_ofChars? h⟩
  · rintro ⟨hn, rfl⟩
    exact ofChars?_toChars hn

/-- A numeral is complete: a sign after it does not belong to it. -/
theorem awaitsExponent_toChars {n : Numeral} (h : n.IsProper) :
    awaitsExponent n.toChars = false := by
  have hn := ofChars?_toChars h
  unfold ofChars? at hn
  unfold awaitsExponent
  split
  · rename_i mark hm
    simp [hm, Exponent.ofChars?, Exponent.splitSign] at hn
  · rfl

end Numeral

/-- The characters of a numeral. -/
def IsNumeral (cs : List Char) : Prop := ∃ n : Numeral, n.IsProper ∧ n.toChars = cs

theorem ofChars?_eq_none_iff {cs : List Char} : Numeral.ofChars? cs = none ↔ ¬ IsNumeral cs := by
  rw [Option.eq_none_iff_forall_not_mem]
  simp only [Option.mem_def, Numeral.ofChars?_eq_some_iff, IsNumeral, not_exists]

/-- The characters of a mantissa and an exponent mark, with the exponent still to come. -/
def IsOpenNumeral (cs : List Char) : Prop :=
  ∃ (m : Mantissa) (mark : Char), m.IsProper ∧ isExponentMark mark = true ∧ m.toChars ++ [mark] = cs

theorem awaitsExponent_mantissa {m : Mantissa} {mark : Char} (hm : m.IsProper)
    (hmark : isExponentMark mark = true) : awaitsExponent (m.toChars ++ [mark]) = true := by
  have hends : m.Ends [mark] := by
    intro c hc
    cases hc
    exact ⟨isDigit_of_isExponentMark hmark, fun _ => ne_point_of_isExponentMark hmark⟩
  simp [awaitsExponent, Mantissa.read?_toChars_append hm hends, hmark]

theorem awaitsExponent_iff {cs : List Char} :
    awaitsExponent cs = true ↔ IsOpenNumeral cs := by
  constructor
  · intro h
    unfold awaitsExponent at h
    split at h
    · rename_i m mark hread
      exact ⟨m, mark, (Mantissa.isProper_of_read? hread).1, h,
        Mantissa.toChars_append_of_read? hread⟩
    · cases h
  · rintro ⟨m, mark, hm, hmark, rfl⟩
    exact awaitsExponent_mantissa hm hmark

end Reckoner
