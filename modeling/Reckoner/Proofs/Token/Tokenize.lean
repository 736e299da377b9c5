import Reckoner.Proofs.Token.Boundary
import Reckoner.Proofs.Token.Sign

/-!
# The tokens of a text in parts

`tokensFrom before cs` are the tokens of a text without blanks, told from the words before it only
whether an operand has just ended. A symbol that is no sign, or an identifier between symbols, cuts
the text into parts with tokens of their own (`tokensFrom_symbol`, `tokensFrom_word`).
-/

namespace Reckoner

namespace Token

def tokensFrom (before : Bool) (cs : List Char) : List Token :=
  classifySigns before (dropIdlePlus (scan cs))

theorem tokensFrom_cut {t : Token} (hsign : t.asUnary = t) {xs ys cs : List Char}
    (hsub : t ≠ .symbol (.operator .sub)) (hadd : t ≠ .symbol (.operator .add))
    (h : scan cs = scan xs ++ t :: scan ys) (before : Bool) :
    tokensFrom before cs = tokensFrom before xs ++ t :: tokensFrom t.endsOperand ys := by
  rw [tokensFrom, h, dropIdlePlus_append_cons hsub, dropIdlePlus_cons hadd, classifySigns_append,
    classifySigns_cons hsign]
  rfl

theorem tokensFrom_symbol {c : Char} {s : Symbol} (hs : Symbol.ofChar? c = some s)
    (hsign : isSign c = false) (before : Bool) (xs ys : List Char) :
    tokensFrom before (xs ++ c :: ys) =
      tokensFrom before xs ++ .symbol s :: tokensFrom s.endsOperand ys := by
  have hcut := scan_append_symbol_cons hs hsign xs ys
  refine tokensFrom_cut ?_ ?_ ?_ hcut before <;>
  · unfold Symbol.ofChar? at hs
    split at hs <;> cases hs <;> first | rfl | decide | cases hsign

/-- Parentheses make a part of their own. -/
theorem tokensFrom_group (before : Bool) (xs ys zs : List Char) :
    tokensFrom before (xs ++ '(' :: (ys ++ ')' :: zs)) =
      tokensFrom before xs ++ (.symbol .opening :: tokensFrom false ys ++ [.symbol .closing]) ++
        tokensFrom true zs := by
  rw [tokensFrom_symbol rfl rfl, tokensFrom_symbol rfl rfl]
  simp [Symbol.endsOperand]

theorem tokensFrom_word {name : String} (h : IsWord name)
    (hdigit : ∀ c ∈ name.toList.head?, c.isDigit = false) {xs ys : List Char}
    (hxs : ∀ c ∈ xs.getLast?, isSymbol c = true) (hys : ∀ c ∈ ys.head?, isSymbol c = true)
    (before : Bool) :
    tokensFrom before (xs ++ name.toList ++ ys) =
      tokensFrom before xs ++ [.identifier name] ++ tokensFrom true ys := by
  have hcut := scan_append_word h (fun _ => hdigit) hxs hys
  rw [tokensFrom_cut (t := .identifier name) rfl (by simp) (by simp) hcut before]
  simp [endsOperand]

/-- The text of an identifier stands in the text that it was read from. -/
theorem infix_of_identifier_mem {name : String} {before : Bool} {cs : List Char}
    (h : .identifier name ∈ tokensFrom before cs) : name.toList <:+: cs := by
  have hm := mem_of_mem_dropIdlePlus (mem_of_mem_classifySigns (by simp) h)
  obtain ⟨left, right, hsplit⟩ := List.append_of_mem hm
  refine ⟨left.flatMap (·.text.toList), right.flatMap (·.text.toList), ?_⟩
  rw [← flatMap_text_scan cs, hsplit]
  simp [text]

/-- The scanner takes every sign for a binary operator. -/
theorem isUnarySign_of_mem_scanFrom {t : Token} {atom cs : List Char} (h : t ∈ scanFrom atom cs) :
    t.isUnarySign = false := by
  have hflush : ∀ {atom : List Char}, t ∈ flush atom → t.isUnarySign = false := by
    intro atom h
    unfold flush ofAtom at h
    split at h
    · cases h
    · rw [List.mem_singleton.1 h]
      split <;> rfl
  induction cs generalizing atom with
  | nil => exact hflush h
  | cons c rest ih =>
    rw [scanFrom] at h
    split at h
    · exact ih h
    · rename_i s hs
      split at h
      · exact ih h
      · rcases List.mem_append.1 h with h | h
        · exact hflush h
        · rcases List.mem_cons.1 h with rfl | h
          · unfold Symbol.ofChar? at hs
            split at hs <;> cases hs <;> rfl
          · exact ih h

theorem isChain_tokensFrom (cs : List Char) : (tokensFrom false cs).IsChain SignApart := by
  have hscan : ∀ t ∈ dropIdlePlus (scan cs), t.isUnarySign = false :=
    fun t ht => isUnarySign_of_mem_scanFrom (mem_of_mem_dropIdlePlus ht)
  -- the start of a text is like the place after a comma
  exact (isChain_classifySigns hscan (.symbol .comma)).tail

end Token

end Reckoner
