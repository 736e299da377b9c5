import Reckoner.Proofs.Decimal.Text
import Reckoner.Proofs.Evaluate
import Reckoner.Proofs.Token.Segmentation

/-!
# Literals

A text without blanks is a single number just if it spells a numeral, the sign of an exponent
included (`tokenize_eq_number_iff`). Every number among the tokens of a text is a proper numeral
(`isProper_of_number_mem`), and its value is the double nearest to what it spells: never a negative
one, and never the one that is not a number (`literals_read`).
-/

namespace Reckoner

namespace Token

theorem isProper_of_number_mem_scan {n : Numeral} {cs : List Char} (h : .number n ∈ scan cs) :
    n.IsProper := by
  obtain ⟨before, after, hsplit⟩ := List.append_of_mem h
  exact ((cut_scan cs).isSegmentation.atom (.number n) after ⟨before, hsplit.symm⟩ rfl).number n rfl

theorem tokensFrom_eq_number_iff {n : Numeral} {before : Bool} {cs : List Char} :
    tokensFrom before cs = [.number n] ↔ n.IsProper ∧ n.toChars = cs := by
  constructor
  · intro h
    have hscan : scan cs = [.number n] :=
      eq_singleton_of_dropIdlePlus (by simp) (eq_singleton_of_classifySigns (by simp) h)
    have hchars := flatMap_text_scan cs
    rw [hscan] at hchars
    exact ⟨isProper_of_number_mem_scan (hscan ▸ List.mem_singleton_self _),
      by simpa [text, Numeral.text] using hchars⟩
  · rintro ⟨hn, rfl⟩
    have hscan := @scan_numeral_append n hn [] (by simp)
    rw [List.append_nil] at hscan
    rw [tokensFrom, hscan]
    cases before <;> rfl

end Token

theorem tokenize_eq_ok {reserved : List Char} {text : String} {tokens : List Token}
    (h : tokenize reserved text = .ok tokens) : tokens = Token.tokensFrom false (solid text) := by
  unfold tokenize at h
  dsimp only at h
  split at h
  · cases h
  · split at h
    · cases h
    · exact (Except.ok.inj h).symm

/-- What stands between the blanks of a text is a numeral. -/
theorem tokenize_eq_number_iff {text : String} {n : Numeral} :
    tokenize reservedCharacters text = .ok [.number n] ↔ n.IsProper ∧ n.toChars = solid text := by
  constructor
  · exact fun h => Token.tokensFrom_eq_number_iff.1 (tokenize_eq_ok h).symm
  · rintro ⟨hn, hchars⟩
    have hreserved : ∀ c ∈ solid text, c ∉ reservedCharacters := by
      rintro c hc hr
      rw [reservedCharacters, List.mem_singleton] at hr
      subst hr
      exact absurd (hn.of_mem_toChars (hchars ▸ hc)) (by decide)
    have hne : solid text ≠ [] := by
      rintro hsolid
      obtain ⟨c, cs, hcs, -⟩ := Double.isSign_head_toChars hn
      rw [hchars, hsolid] at hcs
      cases hcs
    rw [tokenize_of_plain hne hreserved, Token.tokensFrom_eq_number_iff.2 ⟨hn, hchars⟩]

theorem isProper_of_number_mem {reserved : List Char} {text : String} {tokens : List Token}
    {n : Numeral} (h : tokenize reserved text = .ok tokens) (hn : .number n ∈ tokens) :
    n.IsProper := by
  rw [tokenize_eq_ok h] at hn
  exact Token.isProper_of_number_mem_scan
    (Token.mem_of_mem_dropIdlePlus (Token.mem_of_mem_classifySigns (by simp) hn))

namespace Double

/-- The nearest double has the sign that it was given. -/
theorem parts_nearest (negative : Bool) (num den : Nat) :
    (∃ quanta, parts (nearest negative num den) = .finite negative quanta) ∨
      parts (nearest negative num den) = .infinite negative := by
  rw [nearest]
  rcases (nearestBits_le num den).lt_or_eq with hlt | heq
  · exact .inl ⟨_, parts_ofBits hlt⟩
  · rw [heq]
    exact .inr parts_infinity

end Double

/-- A text without blanks is a single number just if it spells a numeral. Every number among the
tokens of a text reads as the double nearest to what it spells, which is finite or infinite and has
no minus, and puts that double into the order. -/
theorem literals_read :
    (∀ text : String, Text.HasNoBlank text → ∀ n : Numeral,
      tokenize reservedCharacters text = .ok [.number n] ↔ n.IsProper ∧ n.text = text) ∧
    ∀ (reserved : List Char) (text : String) (tokens : List Token) (n : Numeral),
      tokenize reserved text = .ok tokens → .number n ∈ tokens →
        Double.read? n.text = some n.value ∧
        n.value = Double.nearest false
          (n.toDecimal.digits * Nat.pow 10 n.toDecimal.exponent.toNat * Double.unit)
          (Nat.pow 10 (-n.toDecimal.exponent).toNat) ∧
        ((∃ quanta, Double.parts n.value = .finite false quanta) ∨
          Double.parts n.value = .infinite false) ∧
        ∀ scope pending,
          Postfix.step scope pending (.number n) = .ok ([.number n.value], pending) := by
  refine ⟨fun text hblank n => ?_, fun reserved text tokens n htokens hmem => ?_⟩
  · rw [tokenize_eq_number_iff, solid_eq_toList hblank, Numeral.text]
    refine and_congr_right fun _ => ⟨fun h => ?_, fun h => ?_⟩
    · rw [h, String.ofList_toList]
    · rw [← h, String.toList_ofList]
  · have hn := isProper_of_number_mem htokens hmem
    have hvalue := Decimal.toDouble_eq_nearest false n.toDecimal
    have hread : Double.read? n.text = some n.value :=
      @Double.read?_of_toChars n hn false n.text (by simp [Numeral.text])
    refine ⟨hread, hvalue, ?_, fun _ _ => rfl⟩
    rw [Numeral.value, hvalue]
    exact Double.parts_nearest ..

/-- The signs of two exponents, and a numeral that is too large for a finite double. -/
theorem literals_read_exponent :
    let n : Numeral := ⟨⟨['1'], some []⟩, some ⟨'e', some '+', ['5']⟩⟩
    let m : Numeral := ⟨⟨[], some ['5']⟩, some ⟨'E', some '+', ['4', '0', '0']⟩⟩
    let tokens : List Token := [.identifier "x", .symbol (.operator .sub), .number m]
    (Text.HasNoBlank "1.e+5" ∧ tokenize reservedCharacters "1.e+5" = .ok [.number n]) ∧
      tokenize reservedCharacters "x - .5E+400" = .ok tokens ∧ .number m ∈ tokens ∧
      Double.read? ".5E+400" = some m.value ∧ Double.parts m.value = .infinite false := by
  intro n m tokens
  have hblank : Text.HasNoBlank "1.e+5" := by simp [Text.HasNoBlank, Text.isBlank]
  have hn : n.IsProper ∧ n.text = "1.e+5" := by
    refine ⟨⟨⟨by simp [n], by simp [n], by simp [n]⟩, ?_⟩, by decide +kernel⟩
    rintro e ⟨⟩
    exact ⟨by decide, by simp [isSign], by simp, by simp⟩
  have htokens : tokenize reservedCharacters "x - .5E+400" = .ok tokens := by decide +kernel
  have hmem : .number m ∈ tokens := by simp [tokens]
  obtain ⟨hread, -⟩ := literals_read.2 _ _ tokens m htokens hmem
  have htext : m.text = ".5E+400" := by decide +kernel
  have hparts : Double.parts m.value = .infinite false := by decide +kernel
  exact ⟨⟨hblank, (literals_read.1 _ hblank n).2 hn⟩, htokens, hmem, htext ▸ hread, hparts⟩

end Reckoner
