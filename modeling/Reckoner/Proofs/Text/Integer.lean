import Mathlib.Data.List.TakeWhile
import Mathlib.Tactic
import Reckoner.Text.Integer

/-!
# Whole numbers read back

A run of ASCII digits is read as the number it spells, and so a whole number is read back from its
text (`readInt_toString`) as long as it has no more digits than may be read.
-/

namespace Reckoner.Text

/-! ## ASCII digits -/

theorem ofAsciiDigits_eq (cs : List Char) : ofAsciiDigits cs = Nat.ofDigitChars 10 cs 0 := by
  rw [ofAsciiDigits, ofDigits, List.foldl_map, Nat.ofDigitChars_eq_foldl]

@[simp] theorem ofAsciiDigits_toDigits (n : Nat) : ofAsciiDigits (Nat.toDigits 10 n) = n := by
  rw [ofAsciiDigits_eq, Nat.ofDigitChars_ten_toDigits]

theorem isDigit_of_mem_toDigits {n : Nat} {c : Char} (hc : c ∈ Nat.toDigits 10 n) :
    c.isDigit = true :=
  Nat.isDigit_of_mem_toDigits (by norm_num) (by norm_num) hc

theorem isDigit_iff {c : Char} : c.isDigit = true ↔ 0x30 ≤ c.toNat ∧ c.toNat < 0x3a := by
  simp only [Char.isDigit, Bool.and_eq_true, decide_eq_true_eq, UInt32.le_iff_toNat_le]
  change 0x30 ≤ c.toNat ∧ c.toNat ≤ 0x39 ↔ _
  omega

theorem digit?_of_isDigit {c : Char} (h : c.isDigit = true) :
    digit? c = some (c.toNat - '0'.toNat) := by
  have hc := isDigit_iff.1 h
  have hfind : digitZeros.find? (fun z => z ≤ c.toNat && c.toNat < z + 10) = some 0x30 := by
    rw [digitZeros, List.find?_cons_of_pos]
    simpa using hc
  rw [digit?, hfind]
  rfl

theorem isBlank_of_isDigit {c : Char} (h : c.isDigit = true) : isBlank c = false := by
  have hc := isDigit_iff.1 h
  simp only [isBlank, Bool.or_eq_false_iff, Bool.and_eq_false_iff, decide_eq_false_iff_not,
    beq_eq_false_iff_ne]
  omega

theorem groupedDigits?_of_isDigit {cs : List Char} (hne : cs ≠ [])
    (h : ∀ c ∈ cs, c.isDigit = true) :
    groupedDigits? cs = some (cs.map fun c => c.toNat - '0'.toNat) := by
  induction cs with
  | nil => exact absurd rfl hne
  | cons c rest ih =>
    cases rest with
    | nil => simp [groupedDigits?, digit?_of_isDigit (h c (by simp))]
    | cons d rest =>
      have hd : d ≠ '_' := by
        rintro rfl
        simpa using h '_' (by simp)
      have hrest := ih (by simp) fun x hx => h x (List.mem_cons_of_mem _ hx)
      rw [groupedDigits?, digit?_of_isDigit (h c List.mem_cons_self), hrest]
      · rfl
      · simp
      · exact fun _ heq => hd (List.cons.inj heq).1

/-! ## There and back -/

theorem takeWhile_isDigitOrUnderscore {cs : List Char} (h : ∀ c ∈ cs, c.isDigit = true) :
    cs.takeWhile isDigitOrUnderscore = cs :=
  List.takeWhile_eq_self_iff.2 fun c hc => by simp [isDigitOrUnderscore, digit?_of_isDigit (h c hc)]

theorem length_toDigits_le {n limit : Nat} (hlimit : 0 < limit) (h : n < Nat.pow 10 limit) :
    (Nat.toDigits 10 n).length ≤ limit :=
  (Nat.length_toDigits_le_iff (by norm_num) hlimit).2 h

theorem readMagnitude_toDigits {n : Nat} (h : (Nat.toDigits 10 n).length ≤ maxIntegerDigits) :
    readMagnitude (Nat.toDigits 10 n) = .ok n := by
  have hdigits : ∀ c ∈ Nat.toDigits 10 n, c.isDigit = true := fun c => isDigit_of_mem_toDigits
  rw [readMagnitude, takeWhile_isDigitOrUnderscore hdigits,
    groupedDigits?_of_isDigit Nat.toDigits_ne_nil hdigits]
  dsimp only
  rw [List.length_map, if_neg (by omega), if_pos]
  · exact congrArg Except.ok (ofAsciiDigits_toDigits n)
  · rw [List.dropWhile_eq_nil_iff.2]
    · rfl
    · intro c hc
      simp [isDigitOrUnderscore, digit?_of_isDigit (hdigits c hc)]

theorem readInt_eq (s : List Char) :
    readInt s = match s.dropWhile isMargin with
      | '-' :: rest => (readMagnitude rest).map Int.negOfNat
      | '+' :: rest => (readMagnitude rest).map Int.ofNat
      | rest => (readMagnitude rest).map Int.ofNat := by
  have hlift : ∀ (f : Int → Int) (r : Except IntegerError Nat),
      Except.map f (r >>= fun n => pure (n : Int)) = r.map fun n : Nat => f n := by
    intro f r
    cases r <;> rfl
  simp only [readInt, hlift]
  rfl

theorem readInt_of_isDigit {c : Char} {cs : List Char} (hc : c.isDigit = true) :
    readInt (c :: cs) = (readMagnitude (c :: cs)).map Int.ofNat := by
  have hmargin : isMargin c = false := by
    cases hm : isMargin c with
    | false => rfl
    | true => exact absurd (isBlank_of_isMargin hm) (by simp [isBlank_of_isDigit hc])
  rw [readInt_eq, List.dropWhile_cons_of_neg (by simp [hmargin])]
  split
  · rename_i heq
    cases heq
    cases hc
  · rename_i heq
    cases heq
    cases hc
  · rfl

theorem toList_toString_ofNat (n : Nat) : (toString (Int.ofNat n)).toList = Nat.toDigits 10 n :=
  Nat.toList_repr

theorem toList_toString_negSucc (n : Nat) :
    (toString (Int.negSucc n)).toList = '-' :: Nat.toDigits 10 (n + 1) := by
  rw [← Nat.toList_repr]
  exact String.toList_append

/-- A whole number is read back unless it has more digits than may be read. -/
theorem readInt_toString {n : Int} (h : IsShort n) : readInt (toString n).toList = .ok n := by
  have hlen : (Nat.toDigits 10 n.natAbs).length ≤ maxIntegerDigits :=
    length_toDigits_le (by decide) h
  cases n with
  | ofNat n =>
    rw [toList_toString_ofNat]
    cases hd : Nat.toDigits 10 n with
    | nil => exact absurd hd Nat.toDigits_ne_nil
    | cons c cs =>
      have hc : c.isDigit = true := isDigit_of_mem_toDigits (n := n) (by simp [hd])
      rw [readInt_of_isDigit hc, ← hd, readMagnitude_toDigits (n := n) hlen]
      rfl
  | negSucc n =>
    rw [toList_toString_negSucc, readInt_eq, List.dropWhile_cons_of_neg (by decide)]
    exact congrArg (Except.map Int.negOfNat) (readMagnitude_toDigits hlen)

/-! ## Blanks -/

/-- No character of a text is a blank. -/
def HasNoBlank (text : String) : Prop := ∀ c ∈ text.toList, isBlank c = false

theorem hasNoBlank_append {s t : String} (hs : HasNoBlank s) (ht : HasNoBlank t) :
    HasNoBlank (s ++ t) := by
  rw [HasNoBlank, String.toList_append]
  exact List.forall_mem_append.2 ⟨hs, ht⟩

theorem hasNoBlank_ofList {cs : List Char} (h : ∀ c ∈ cs, isBlank c = false) :
    HasNoBlank (String.ofList cs) := by
  rwa [HasNoBlank, String.toList_ofList]

theorem hasNoBlank_toString (n : Int) : HasNoBlank (toString n) := by
  have hdigits : ∀ k, ∀ c ∈ Nat.toDigits 10 k, isBlank c = false := fun k c hc =>
    isBlank_of_isDigit (isDigit_of_mem_toDigits hc)
  cases n with
  | ofNat n =>
    rw [HasNoBlank, toList_toString_ofNat]
    exact hdigits n
  | negSucc n =>
    rw [HasNoBlank, toList_toString_negSucc]
    exact List.forall_mem_cons.2 ⟨by decide, hdigits _⟩

end Reckoner.Text
