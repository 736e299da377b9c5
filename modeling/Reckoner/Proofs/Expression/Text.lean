import Reckoner.Proofs.Expression.Basic
import Reckoner.Proofs.Token.Boundary

/-!
# The text of an expression

The scanner reads the text of an expression as the tokens that it was written from
(`Expr.scan_text`), each sign as a binary operator.
-/

namespace Reckoner

open Token

/-! ## Symbols -/

section
variable {c : Char} {s : Symbol}

theorem Symbol.text_toList (h : ofChar? c = some s) : s.text.toList = [c] := by
  simp [text_of_ofChar? h]

theorem Token.scan_symbol_append (h : Symbol.ofChar? c = some s) (rest : List Char) :
    scan ((Token.symbol s).text.toList ++ rest) = .symbol s :: scan rest := by
  rw [text, Symbol.text_toList h, List.singleton_append, scan_symbol_cons h]

theorem Token.isSymbol_head_append (h : Symbol.ofChar? c = some s) (rest : List Char) :
    ∀ d ∈ ((Token.symbol s).text.toList ++ rest).head?, isSymbol d = true := by
  rw [text, Symbol.text_toList h]
  intro d hd
  cases hd
  exact isSymbol_iff.2 ⟨s, h⟩

end

theorem Token.scan_identifier_append {name : String} (h : IsWord name) {rest : List Char}
    (hrest : ∀ c ∈ rest.head?, isSymbol c = true) :
    scan ((Token.identifier name).text.toList ++ rest) = .identifier name :: scan rest :=
  scan_word_append h hrest

theorem Sign.ofChar?_binary (s : Sign) : ∃ c, Symbol.ofChar? c = some (.operator s.binary) := by
  cases s
  · exact ⟨'+', rfl⟩
  · exact ⟨'-', rfl⟩

theorem Scaling.ofChar?_operator (o : Scaling) :
    ∃ c, Symbol.ofChar? c = some (.operator o.operator) := by
  cases o
  · exact ⟨'*', rfl⟩
  · exact ⟨'/', rfl⟩

/-! ## Trees -/

/-- The words of an expression can be told from each other and from symbols. -/
structure Vocabulary.Spelled (words : Vocabulary) : Prop where
  numeral : ∀ n, words.numeral n → n.IsProper
  operand : ∀ x, words.operand x → IsWord x
  function : ∀ k f, words.function k f → IsWord f

namespace Expr

variable {words : Vocabulary} {t : Tier}

/-- The tokens of an expression before unary signs are told from binary ones. -/
def rawTokens (e : Expr words t) : List Token := e.spell Sign.binary

/-- An expression written without blanks. -/
def text (e : Expr words t) : List Char := e.rawTokens.flatMap (·.text.toList)

theorem scan_text_append (hwords : words.Spelled) {t : Tier} (e : Expr words t) {rest : List Char}
    (hrest : ∀ c ∈ rest.head?, isSymbol c = true) :
    scan (e.text ++ rest) = e.rawTokens ++ scan rest := by
  have hopen : Symbol.ofChar? '(' = some .opening := rfl
  have hclose : Symbol.ofChar? ')' = some .closing := rfl
  have hcomma : Symbol.ofChar? ',' = some .comma := rfl
  have hfact : Symbol.ofChar? '!' = some (.operator .fact) := rfl
  have hpow : Symbol.ofChar? '^' = some (.operator .pow) := rfl
  unfold text rawTokens
  -- an atom ends where a symbol follows, the next one of the expression or the first of the rest
  induction e generalizing rest with
  | number n h =>
    simpa [spell, Token.text, Numeral.text] using scan_numeral_append (hwords.numeral n h) hrest
  | name x h => simpa [spell] using scan_identifier_append (hwords.operand x h) hrest
  | group e ih =>
    simp only [spell, List.flatMap_append, List.flatMap_cons, List.flatMap_nil, List.append_nil,
      List.append_assoc, List.cons_append]
    rw [scan_symbol_append hopen, ih (isSymbol_head_append hclose rest),
      scan_symbol_append hclose]
    rfl
  | closed e ih | primary e ih | operand e ih | unsigned e ih | factor e ih | term e ih =>
    exact ih hrest
  | call f h e ih =>
    simp only [spell, List.flatMap_append, List.flatMap_cons, List.flatMap_nil, List.append_nil,
      List.append_assoc, List.cons_append]
    rw [scan_identifier_append (hwords.function 1 f h) (isSymbol_head_append hopen _),
      scan_symbol_append hopen, ih (isSymbol_head_append hclose rest), scan_symbol_append hclose]
    rfl
  | callPair f h first second ih₁ ih₂ =>
    simp only [spell, List.flatMap_append, List.flatMap_cons, List.flatMap_nil, List.append_nil,
      List.append_assoc, List.cons_append]
    rw [scan_identifier_append (hwords.function 2 f h) (isSymbol_head_append hopen _),
      scan_symbol_append hopen, ih₁ (isSymbol_head_append hcomma _), scan_symbol_append hcomma,
      ih₂ (isSymbol_head_append hclose rest), scan_symbol_append hclose]
    rfl
  | factorial e ih =>
    simp only [spell, List.flatMap_append, List.flatMap_cons, List.flatMap_nil, List.append_nil,
      List.append_assoc]
    rw [ih (isSymbol_head_append hfact rest), scan_symbol_append hfact]
    rfl
  | power base exponent ih₁ ih₂ =>
    simp only [spell, List.flatMap_append, List.flatMap_cons, List.append_assoc, List.cons_append]
    rw [ih₁ (isSymbol_head_append hpow _), scan_symbol_append hpow, ih₂ hrest]
  | signed s e ih =>
    obtain ⟨c, hs⟩ := s.ofChar?_binary
    simp only [spell, List.flatMap_cons, List.append_assoc, List.cons_append]
    rw [scan_symbol_append hs, ih hrest]
  | product left o right ih₁ ih₂ =>
    obtain ⟨c, ho⟩ := o.ofChar?_operator
    simp only [spell, List.flatMap_append, List.flatMap_cons, List.append_assoc, List.cons_append]
    rw [ih₁ (isSymbol_head_append ho _), scan_symbol_append ho, ih₂ hrest]
  | sum left s right ih₁ ih₂ =>
    obtain ⟨c, hs⟩ := s.ofChar?_binary
    simp only [spell, List.flatMap_append, List.flatMap_cons, List.append_assoc, List.cons_append]
    rw [ih₁ (isSymbol_head_append hs _), scan_symbol_append hs, ih₂ hrest]

theorem scan_text (hwords : words.Spelled) (e : Expr words t) : scan e.text = e.rawTokens := by
  have hnil : ∀ c ∈ ([] : List Char).head?, isSymbol c = true := by simp
  simpa [scan, scanFrom, flush] using e.scan_text_append hwords hnil

/-! ## Characters -/

theorem text_ne_nil (hwords : words.Spelled) (e : Expr words t) : e.text ≠ [] := by
  have hraw : e.rawTokens ≠ [] := by
    unfold rawTokens
    induction e <;> simp_all [spell]
  intro h
  rw [← e.scan_text hwords, h] at hraw
  exact hraw rfl

theorem reserved_of_symbol {c : Char} {s : Symbol} (h : Symbol.ofChar? c = some s) :
    ∀ d ∈ (Token.symbol s).text.toList, d ∉ reservedCharacters := by
  rw [Token.text, Symbol.text_toList h]
  intro d hd hr
  rw [List.mem_singleton.1 hd, reservedCharacters, List.mem_singleton] at hr
  rw [hr] at h
  cases h

theorem reserved_of_numeral {n : Numeral} (h : n.IsProper) :
    ∀ c ∈ (Token.number n).text.toList, c ∉ reservedCharacters := by
  intro c hc hr
  have hn : c ∈ n.toChars := by simpa [Token.text, Numeral.text] using hc
  rw [reservedCharacters, List.mem_singleton] at hr
  subst hr
  exact absurd (h.of_mem_toChars hn) (by decide)

theorem reserved_of_mem_rawTokens (hwords : words.Spelled) (e : Expr words t) :
    ∀ token ∈ e.rawTokens, ∀ c ∈ token.text.toList, c ∉ reservedCharacters := by
  have hopen := @reserved_of_symbol '(' .opening rfl
  have hclose := @reserved_of_symbol ')' .closing rfl
  have hcomma := @reserved_of_symbol ',' .comma rfl
  have hfact := @reserved_of_symbol '!' (.operator .fact) rfl
  have hpow := @reserved_of_symbol '^' (.operator .pow) rfl
  unfold rawTokens
  induction e with
  | number n h => exact List.forall_mem_singleton.2 (reserved_of_numeral (hwords.numeral n h))
  | name x h => exact List.forall_mem_singleton.2 (hwords.operand x h).noReserved
  | closed e ih | primary e ih | operand e ih | unsigned e ih | factor e ih | term e ih => exact ih
  | group e ih =>
    simp only [spell, List.forall_mem_append, List.forall_mem_cons]
    exact ⟨⟨hopen, ih⟩, hclose, by simp⟩
  | call f h e ih =>
    have hf := (hwords.function 1 f h).noReserved
    simp only [spell, List.forall_mem_append, List.forall_mem_cons]
    exact ⟨hf, ⟨hopen, ih⟩, hclose, by simp⟩
  | callPair f h first second ih₁ ih₂ =>
    have hf := (hwords.function 2 f h).noReserved
    simp only [spell, List.forall_mem_append, List.forall_mem_cons]
    exact ⟨hf, ⟨hopen, ih₁, hcomma, ih₂⟩, hclose, by simp⟩
  | factorial e ih =>
    simp only [spell, List.forall_mem_append, List.forall_mem_singleton]
    exact ⟨ih, hfact⟩
  | power base exponent ih₁ ih₂ =>
    simp only [spell, List.forall_mem_append, List.forall_mem_cons]
    exact ⟨ih₁, hpow, ih₂⟩
  | signed s e ih =>
    obtain ⟨c, hs⟩ := s.ofChar?_binary
    exact List.forall_mem_cons.2 ⟨reserved_of_symbol hs, ih⟩
  | product left o right ih₁ ih₂ =>
    obtain ⟨c, ho⟩ := o.ofChar?_operator
    simp only [spell, List.forall_mem_append, List.forall_mem_cons]
    exact ⟨ih₁, reserved_of_symbol ho, ih₂⟩
  | sum left s right ih₁ ih₂ =>
    obtain ⟨c, hs⟩ := s.ofChar?_binary
    simp only [spell, List.forall_mem_append, List.forall_mem_cons]
    exact ⟨ih₁, reserved_of_symbol hs, ih₂⟩

/-- The text of an expression holds no reserved character. -/
theorem reserved_of_mem_text (hwords : words.Spelled) (e : Expr words t) :
    ∀ c ∈ e.text, c ∉ reservedCharacters := by
  intro c hc
  obtain ⟨token, ht, hc⟩ := List.mem_flatMap.1 hc
  exact e.reserved_of_mem_rawTokens hwords token ht c hc

end Expr

end Reckoner
