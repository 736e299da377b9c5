import Reckoner.Decimal.Layout
import Reckoner.Decimal.Reading
import Reckoner.Proofs.Decimal.Shortest
import Reckoner.Proofs.Numeral
import Reckoner.Proofs.Text.Integer

/-!
# The text of a double reads back

The digits of a decimal, laid out with a point among them or a power of ten after them, are the text
of a numeral of the same value (`exists_spells_render`). Such a text passes the reader unchanged, so
the double it was made from is read back (`read?_exactText`).

No layout has a blank in it (`hasNoBlank_text`).
-/

namespace Reckoner.Decimal

open Text (ofAsciiDigits ofAsciiDigits_eq ofAsciiDigits_toDigits isDigit_of_mem_toDigits)

/-! ## Digits -/

section
variable {digits : List Char}

@[simp] theorem ofAsciiDigits_zero_cons (digits : List Char) :
    ofAsciiDigits ('0' :: digits) = ofAsciiDigits digits := rfl

theorem ofAsciiDigits_replicate_append (k : Nat) (digits : List Char) :
    ofAsciiDigits (List.replicate k '0' ++ digits) = ofAsciiDigits digits := by
  induction k with
  | zero => rfl
  | succ k ih => rw [List.replicate_succ, List.cons_append, ofAsciiDigits_zero_cons, ih]

theorem ofAsciiDigits_append_replicate (digits : List Char) (k : Nat) :
    ofAsciiDigits (digits ++ List.replicate k '0') = ofAsciiDigits digits * 10 ^ k := by
  rw [ofAsciiDigits_eq, Nat.ofDigitChars_append, Nat.ofDigitChars_replicate_zero,
    ← ofAsciiDigits_eq, Nat.mul_comm]

end

/-! ## Numerals of a decimal -/

theorem exists_exponent (e : Int) : ∃ x : Exponent, x.IsProper ∧
    x.toChars = 'e' :: (exponentText e).toList ∧ x.value = e := by
  let digits := Nat.toDigits 10 e.natAbs
  let padded := if digits.length < 2 then '0' :: digits else digits
  have hdigits : ∀ c ∈ digits, c.isDigit = true := fun c => isDigit_of_mem_toDigits
  refine ⟨⟨'e', some (if e < 0 then '-' else '+'), padded⟩, ⟨rfl, ?_, ?_, ?_⟩, ?_, ?_⟩
  · rintro c ⟨⟩
    split <;> rfl
  · dsimp only [padded]
    split
    · exact List.forall_mem_cons.2 ⟨rfl, hdigits⟩
    · exact hdigits
  · dsimp only [padded]
    split
    · simp
    · exact Nat.toDigits_ne_nil
  · have htext : (toString e.natAbs).toList = digits := Nat.toList_repr
    have hlen : (toString e.natAbs).length = digits.length := by
      rw [← String.length_toList, htext]
    simp only [Exponent.toChars, exponentText, hlen, String.toList_append, Option.toList_some]
    dsimp only [padded]
    split <;> split <;> simp [digits]
  · have hvalue : ofAsciiDigits padded = e.natAbs := by
      dsimp only [padded]
      split
      · exact (ofAsciiDigits_zero_cons _).trans (ofAsciiDigits_toDigits _)
      · exact ofAsciiDigits_toDigits _
    rw [Exponent.value, hvalue]
    by_cases he : e < 0
    · simp only [he, if_true, beq_self_eq_true]
      omega
    · have hsign : ((some '+' : Option Char) == some '-') = false := rfl
      simp only [he, if_false, hsign, Bool.false_eq_true]
      omega

/-- A numeral spells a decimal in a text, perhaps with other digits and another exponent. -/
structure Spells (text : String) (d : Decimal) (n : Numeral) : Prop where
  proper : n.IsProper
  chars : n.toChars = text.toList
  value : n.toDecimal.value = d.value

theorem value_mk {d : Decimal} {e : Int} (h : e = d.exponent) : value ⟨d.digits, e⟩ = d.value := by
  rw [h]

theorem value_shift (n k : Nat) (e : Int) : value ⟨n * 10 ^ k, e⟩ = value ⟨n, e + k⟩ := by
  rw [value, value, zpow_add₀ (by norm_num), zpow_natCast]
  push_cast
  ring

/-- What a layout puts after the digits of a whole number: a point and zeros, or nothing. -/
structure Layout.Marks (l : Layout) (whole : Option (List Char)) : Prop where
  chars : l.wholeMark.toList = whole.elim [] ('.' :: ·)
  zeros : ∃ k, whole.getD [] = List.replicate k '0'

theorem marks_exact : Layout.exact.Marks (some ['0']) := ⟨by decide, 1, rfl⟩

theorem marks_display : Layout.display.Marks none := ⟨by decide, 0, rfl⟩

section
variable (d : Decimal)

theorem exists_spells_plain {l : Layout} {whole : Option (List Char)} (hl : l.Marks whole)
    {leading : Int} (hleading : d.exponent + (Nat.toDigits 10 d.digits).length - 1 = leading) :
    ∃ n, Spells (plainText l.wholeMark (Nat.toDigits 10 d.digits) leading) d n ∧
      ∀ f ∈ n.mantissa.fraction, f ∈ whole ∨ f.getLast? = (Nat.toDigits 10 d.digits).getLast? := by
  have hdigits : ∀ c ∈ Nat.toDigits 10 d.digits, c.isDigit = true :=
    fun c => isDigit_of_mem_toDigits
  have hvalue := ofAsciiDigits_toDigits d.digits
  have hne : Nat.toDigits 10 d.digits ≠ [] := Nat.toDigits_ne_nil
  generalize Nat.toDigits 10 d.digits = digits at *
  have hzeros : ∀ k, ∀ c ∈ List.replicate k '0', c.isDigit = true := fun k c hc => by
    rw [List.eq_of_mem_replicate hc]; rfl
  unfold plainText
  split
  · -- zeros between the point and the first digit
    rename_i hneg
    refine ⟨⟨⟨['0'], some (List.replicate (-leading - 1).toNat '0' ++ digits)⟩, none⟩,
      ⟨⟨⟨by simp, ?_, by simp⟩, by simp⟩, by simp [Numeral.toChars, Mantissa.toChars], ?_⟩, ?_⟩
    · exact List.forall_mem_append.2 ⟨hzeros _, hdigits⟩
    · simp only [Numeral.toDecimal, Option.getD_some, List.singleton_append,
        ofAsciiDigits_zero_cons, ofAsciiDigits_replicate_append, hvalue, Option.map_none,
        Option.getD_none, List.length_append, List.length_replicate]
      exact value_mk (by push_cast; omega)
    · rintro _ ⟨⟩
      exact .inr (List.getLast?_append_of_ne_nil _ hne)
  · rename_i hpos
    dsimp only
    split
    · -- a whole number, with zeros after the last digit
      rename_i hlen
      obtain ⟨k, hk⟩ := hl.zeros
      refine ⟨⟨⟨digits ++ List.replicate (leading.toNat + 1 - digits.length) '0', whole⟩, none⟩,
        ⟨⟨⟨?_, ?_, by simp [hne]⟩, by simp⟩, ?_, ?_⟩, fun f hf => .inl hf⟩
      · exact List.forall_mem_append.2 ⟨hdigits, hzeros _⟩
      · exact hk ▸ hzeros k
      · cases whole <;> simp [Numeral.toChars, Mantissa.toChars, hl.chars]
      · simp only [Numeral.toDecimal, hk, List.append_assoc, List.replicate_append_replicate,
          ofAsciiDigits_append_replicate, hvalue, Option.map_none, Option.getD_none,
          List.length_replicate, value_shift]
        exact value_mk (by push_cast; omega)
    · -- a point among the digits
      rename_i hlen
      refine ⟨⟨⟨digits.take (leading.toNat + 1), some (digits.drop (leading.toNat + 1))⟩, none⟩,
        ⟨⟨⟨?_, ?_, ?_⟩, by simp⟩, by simp [Numeral.toChars, Mantissa.toChars], ?_⟩, ?_⟩
      · exact fun c hc => hdigits c (List.mem_of_mem_take hc)
      · exact fun c hc => hdigits c (List.mem_of_mem_drop hc)
      · simp [hne]
      · simp only [Numeral.toDecimal, Option.getD_some, List.take_append_drop, hvalue,
          Option.map_none, Option.getD_none, List.length_drop]
        exact value_mk (by omega)
      · rintro _ ⟨⟩
        exact .inr (by rw [List.getLast?_drop, if_neg (by omega)])

theorem exists_spells_scientific {leading : Int}
    (hleading : d.exponent + (Nat.toDigits 10 d.digits).length - 1 = leading) :
    ∃ n, Spells (scientificText (Nat.toDigits 10 d.digits) leading) d n ∧
      n.mantissa.whole.length = 1 ∧ n.exponent.isSome = true ∧
      ∀ f ∈ n.mantissa.fraction, f.getLast? = (Nat.toDigits 10 d.digits).getLast? := by
  have hdigits : ∀ c ∈ Nat.toDigits 10 d.digits, c.isDigit = true :=
    fun c => isDigit_of_mem_toDigits
  have hvalue := ofAsciiDigits_toDigits d.digits
  have hne : Nat.toDigits 10 d.digits ≠ [] := Nat.toDigits_ne_nil
  generalize Nat.toDigits 10 d.digits = digits at *
  obtain ⟨x, hx, hchars, hexp⟩ := exists_exponent leading
  unfold scientificText
  split
  · exact absurd rfl hne
  · rename_i c
    refine ⟨⟨⟨[c], none⟩, some x⟩, ⟨⟨⟨hdigits, by simp, by simp⟩, by simpa using hx⟩, ?_, ?_⟩, rfl,
      rfl, by simp⟩
    · simp [Numeral.toChars, Mantissa.toChars, hchars]
    · simp only [Numeral.toDecimal, Option.getD_none, List.append_nil, hvalue, Option.map_some,
        Option.getD_some, List.length_nil, hexp]
      refine value_mk ?_
      simp only [List.length_singleton] at hleading
      omega
  · rename_i c rest hrest
    refine ⟨⟨⟨[c], some rest⟩, some x⟩, ⟨⟨⟨?_, ?_, by simp⟩, by simpa using hx⟩, ?_, ?_⟩, rfl, rfl, ?_⟩
    · exact fun c' hc' => hdigits c' (by simp_all)
    · exact fun c' hc' => hdigits c' (by simp_all)
    · simp [Numeral.toChars, Mantissa.toChars, hchars]
    · simp only [Numeral.toDecimal, Option.getD_some, List.singleton_append, hvalue,
        Option.map_some, hexp]
      refine value_mk ?_
      simp only [List.length_cons] at hleading
      omega
    · rintro _ ⟨⟩
      rw [List.getLast?_cons_of_ne_nil hrest]

/-- A fraction is what the layout puts after whole numbers, or it ends with the last digit. -/
theorem exists_spells_render {l : Layout} {whole : Option (List Char)} (hl : l.Marks whole) :
    ∃ n, Spells (l.render d) d n ∧
      ∀ f ∈ n.mantissa.fraction, f ∈ whole ∨ f.getLast? = (Nat.toDigits 10 d.digits).getLast? := by
  unfold Layout.render
  dsimp only
  split
  · exact exists_spells_plain d hl rfl
  · obtain ⟨n, hn, -, -, hlast⟩ := exists_spells_scientific d rfl
    exact ⟨n, hn, fun f hf => .inr (hlast f hf)⟩

end

/-! ## Blanks -/

section
open Text (isBlank isBlank_of_isDigit HasNoBlank hasNoBlank_append hasNoBlank_ofList)

theorem hasNoBlank_exponentText (e : Int) : HasNoBlank (exponentText e) := by
  have hdigits : HasNoBlank (toString e.natAbs) := fun c hc =>
    isBlank_of_isDigit (isDigit_of_mem_toDigits (Nat.toList_repr ▸ hc))
  refine hasNoBlank_append ?_ ?_
  · split <;> simp [HasNoBlank, isBlank]
  · split
    · exact hasNoBlank_append (by simp [HasNoBlank, isBlank]) hdigits
    · exact hdigits

theorem hasNoBlank_plainText {mark : String} (hmark : HasNoBlank mark) {digits : List Char}
    (hdigits : ∀ c ∈ digits, isBlank c = false) (e : Int) :
    HasNoBlank (plainText mark digits e) := by
  have hzeros : ∀ k, ∀ c ∈ List.replicate k '0', isBlank c = false := fun k c hc => by
    rw [List.eq_of_mem_replicate hc]
    decide
  have hpoint : isBlank '.' = false := by decide
  unfold plainText
  split
  · refine hasNoBlank_append (by simp [HasNoBlank, isBlank]) (hasNoBlank_ofList ?_)
    exact List.forall_mem_append.2 ⟨hzeros _, hdigits⟩
  · dsimp only
    split
    · refine hasNoBlank_append (hasNoBlank_ofList ?_) hmark
      exact List.forall_mem_append.2 ⟨hdigits, hzeros _⟩
    · refine hasNoBlank_ofList (List.forall_mem_append.2 ⟨?_, List.forall_mem_cons.2 ⟨hpoint, ?_⟩⟩)
      · exact fun c hc => hdigits c (List.mem_of_mem_take hc)
      · exact fun c hc => hdigits c (List.mem_of_mem_drop hc)

theorem hasNoBlank_scientificText {digits : List Char}
    (hdigits : ∀ c ∈ digits, isBlank c = false) (e : Int) :
    HasNoBlank (scientificText digits e) := by
  have hmark : HasNoBlank "e" := by simp [HasNoBlank, isBlank]
  have hpoint : isBlank '.' = false := by decide
  have hexp := hasNoBlank_exponentText e
  unfold scientificText
  split
  · simp [HasNoBlank]
  · exact hasNoBlank_append (hasNoBlank_append (hasNoBlank_ofList hdigits) hmark) hexp
  · obtain ⟨hd, hrest⟩ := List.forall_mem_cons.1 hdigits
    refine hasNoBlank_append (hasNoBlank_append (hasNoBlank_ofList ?_) hmark) hexp
    exact List.forall_mem_cons.2 ⟨hd, List.forall_mem_cons.2 ⟨hpoint, hrest⟩⟩

theorem hasNoBlank_text {l : Layout} (hmark : HasNoBlank l.wholeMark) (x : Float) :
    HasNoBlank (l.text x) := by
  unfold Layout.text
  split
  · simp [HasNoBlank, isBlank]
  · split <;> simp [HasNoBlank, isBlank]
  · refine hasNoBlank_append ?_ ?_
    · split
      · simp [HasNoBlank, isBlank]
      · simp [HasNoBlank]
    · have hdigits : ∀ n, ∀ c ∈ Nat.toDigits 10 n, isBlank c = false := fun n c hc =>
        isBlank_of_isDigit (isDigit_of_mem_toDigits hc)
      unfold Layout.render
      dsimp only
      split
      · exact hasNoBlank_plainText hmark (hdigits _) _
      · exact hasNoBlank_scientificText (hdigits _) _

end

end Reckoner.Decimal

namespace Reckoner

/-! ## Reading -/

/-- A character of a numeral. -/
def Numeral.HasChar (c : Char) : Prop :=
  c.isDigit = true ∨ c = '.' ∨ isExponentMark c = true ∨ isSign c = true

namespace Double

open Text (digit?_of_isDigit isBlank_of_isDigit isDigit_iff)

theorem asciiDigit_eq_self {c : Char} (h : Numeral.HasChar c) : asciiDigit c = c := by
  rcases h with h | rfl | h | h
  · have hc := isDigit_iff.1 h
    rw [asciiDigit, digit?_of_isDigit h]
    change Char.ofNat (48 + (c.toNat - 48)) = c
    rw [Nat.add_sub_cancel' hc.1, Char.ofNat_toNat]
  · decide
  · rcases isExponentMark_iff.1 h with rfl | rfl <;> decide
  · simp only [isSign, Bool.or_eq_true, beq_iff_eq] at h
    rcases h with rfl | rfl <;> decide

theorem isMargin_eq_false {c : Char} (h : Numeral.HasChar c) : Text.isMargin c = false := by
  rcases h with h | rfl | h | h
  · cases hm : Text.isMargin c with
    | false => rfl
    | true => exact absurd (Text.isBlank_of_isMargin hm) (by simp [isBlank_of_isDigit h])
  · decide
  · rcases isExponentMark_iff.1 h with rfl | rfl <;> decide
  · simp only [isSign, Bool.or_eq_true, beq_iff_eq] at h
    rcases h with rfl | rfl <;> decide

theorem ne_underscore {c : Char} (h : Numeral.HasChar c) : c ≠ '_' := by
  rintro rfl
  revert h
  simp [Numeral.HasChar, isExponentMark, isSign]

theorem dropUnderscores?_eq_some {cs : List Char} (h : ∀ c ∈ cs, c ≠ '_') (afterDigit : Bool) :
    dropUnderscores? afterDigit cs = some cs := by
  induction cs generalizing afterDigit with
  | nil => rfl
  | cons c rest ih =>
    obtain ⟨hc, hrest⟩ := List.forall_mem_cons.1 h
    rw [dropUnderscores?, ih hrest]
    · rfl
    · exact fun heq _ => hc heq
    · exact fun _ _ heq => absurd heq hc

theorem toLower_ne_n {c : Char} (h : Numeral.HasChar c) : c.toLower ≠ 'n' := by
  rcases h with h | rfl | h | h
  · have hc := isDigit_iff.1 h
    have hlower : c.toLower = c := by
      refine dif_neg fun hle => ?_
      have hge : 65 ≤ c.toNat := hle.1
      omega
    rw [hlower]
    rintro rfl
    cases h
  · decide
  · rcases isExponentMark_iff.1 h with rfl | rfl <;> decide
  · simp only [isSign, Bool.or_eq_true, beq_iff_eq] at h
    rcases h with rfl | rfl <;> decide

/-- None of the words for what is not finite is a numeral. -/
theorem lowercase_beq_eq_false {cs : List Char} (h : ∀ c ∈ cs, Numeral.HasChar c) (word : String)
    (hword : 'n' ∈ word.toList) : (String.ofList (Text.lowercase cs) == word) = false := by
  rw [beq_eq_false_iff_ne]
  rintro rfl
  rw [String.toList_ofList] at hword
  obtain ⟨c, hc, hlower⟩ := List.mem_map.1 hword
  exact toLower_ne_n (h c hc) hlower

theorem readMagnitude?_toChars {n : Numeral} (h : n.IsProper) (negative : Bool) :
    readMagnitude? negative n.toChars = some (n.toDecimal.toDouble negative) := by
  have hchars : ∀ c ∈ n.toChars, Numeral.HasChar c := fun c => h.of_mem_toChars
  have hmap : n.toChars.map asciiDigit = n.toChars :=
    (List.map_congr_left fun c hc => asciiDigit_eq_self (hchars c hc)).trans (List.map_id _)
  simp only [readMagnitude?, lowercase_beq_eq_false hchars "inf" (by decide),
    lowercase_beq_eq_false hchars "infinity" (by decide),
    lowercase_beq_eq_false hchars "nan" (by decide), Bool.or_self, Bool.false_eq_true, if_false,
    hmap, dropUnderscores?_eq_some fun c hc => ne_underscore (hchars c hc), bind,
    Option.bind_some, Numeral.ofChars?_toChars h]
  rfl

theorem isSign_head_toChars {n : Numeral} (h : n.IsProper) :
    ∃ c cs, n.toChars = c :: cs ∧ isSign c = false := by
  cases hm : n.mantissa.toChars with
  | nil =>
    obtain ⟨⟨whole, fraction⟩, exponent⟩ := n
    cases fraction <;> simp_all [Mantissa.toChars]
    exact absurd h.mantissa.nonempty (by simp)
  | cons c cs =>
    refine ⟨c, _, by rw [Numeral.toChars, hm, List.cons_append], ?_⟩
    rcases h.mantissa.of_mem_toChars (hm ▸ List.mem_cons_self) with hc | rfl
    · cases hs : isSign c with
      | false => rfl
      | true => simp [isDigit_of_isSign hs] at hc
    · rfl

theorem read?_of_toChars {n : Numeral} (h : n.IsProper) {negative : Bool} {text : String}
    (htext : text.toList = (if negative then ['-'] else []) ++ n.toChars) :
    read? text = some (n.toDecimal.toDouble negative) := by
  have hmargin : ∀ c ∈ text.toList, Text.isMargin c = false := by
    rw [htext]
    refine List.forall_mem_append.2 ⟨?_, fun c hc => isMargin_eq_false (h.of_mem_toChars hc)⟩
    cases negative <;> simp
    decide
  rw [read?, Text.trimBy_eq_self hmargin, htext]
  cases negative with
  | true => exact readMagnitude?_toChars h true
  | false =>
    obtain ⟨c, cs, hcs, hsign⟩ := isSign_head_toChars h
    have hread := readMagnitude?_toChars h false
    rw [hcs] at hread ⊢
    simp only [Bool.false_eq_true, if_false, List.nil_append]
    split
    · rename_i heq
      cases heq
      cases hsign
    · rename_i heq
      cases heq
      cases hsign
    · exact hread

/-- The text of a finite double is a sign and a numeral that is read as the double. -/
theorem exists_text_eq {l : Decimal.Layout} {whole : Option (List Char)} (hl : l.Marks whole)
    {x : Float} {negative : Bool} {quanta : Nat} (hx : parts x = .finite negative quanta) :
    ∃ n : Numeral, n.IsProper ∧ l.text x = (if negative then "-" else "") ++ n.text ∧
      n.toDecimal.toDouble negative = x ∧ ∀ f ∈ n.mantissa.fraction,
        f ∈ whole ∨ f.getLast? = (Nat.toDigits 10 (Decimal.shortest quanta).digits).getLast? := by
  obtain ⟨m, hm, rfl, rfl⟩ := exists_ofBits_of_parts hx
  obtain ⟨n, hn, hlast⟩ :=
    Decimal.exists_spells_render (Decimal.shortest (quantaOfBits m)) hl
  have hrender : l.render (Decimal.shortest (quantaOfBits m)) = n.text := by
    rw [Numeral.text, hn.chars, String.ofList_toList]
  refine ⟨n, hn.proper, ?_, Decimal.toDouble_of_value negative hm hn.value, hlast⟩
  rw [Decimal.Layout.text, hx, ← hrender]

/-- The text of a double reads back as the double. -/
theorem read?_text {l : Decimal.Layout} {whole : Option (List Char)} (hl : l.Marks whole) {x : Float}
    (h : x.isNaN = false) : read? (l.text x) = some x := by
  cases hparts : parts x with
  | nan => exact absurd hparts (parts_ne_nan h)
  | infinite negative =>
    have htext : l.text x = if negative then "-inf" else "inf" := by rw [Decimal.Layout.text, hparts]
    rw [htext, ← infinity_of_parts hparts]
    cases negative <;> decide +kernel
  | finite negative quanta =>
    obtain ⟨n, hn, htext, hvalue, -⟩ := exists_text_eq hl hparts
    have hchars : (l.text x).toList = (if negative then ['-'] else []) ++ n.toChars := by
      rw [htext, String.toList_append, Numeral.text, String.toList_ofList]
      cases negative <;> rfl
    rw [read?_of_toChars hn hchars, hvalue]

/-- The text that is kept for a double reads back as the double. -/
theorem read?_exactText {x : Float} (h : x.isNaN = false) : read? (exactText x) = some x :=
  read?_text Decimal.marks_exact h

end Double

end Reckoner
