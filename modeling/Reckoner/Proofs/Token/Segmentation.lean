import Mathlib.Data.List.Infix
import Reckoner.Proofs.Token.Boundary

/-!
# Segmentation

There is one way to cut a text into words. `IsSegmentation` says which one it is, by the words and
the text around them: nothing is lost, atoms stand apart, and a sign is inside an atom just where it
belongs to an exponent. The scanner finds it, and there is no other (`isSegmentation_iff_eq_scan`).

`Cut` lies between the two: a text read word by word, each word tested against the characters that
follow it. The scanner reads like this (`cut_scanFrom`), and no two such readings of a text differ
(`Cut.eq_scan`).
-/

namespace Reckoner.Token

/-! ## Words and what surrounds them -/

/-- The characters of tokens, one after the other. -/
def chars (ts : List Token) : List Char := ts.flatMap (·.text.toList)

theorem chars_cons (t : Token) (ts : List Token) : chars (t :: ts) = t.text.toList ++ chars ts :=
  List.flatMap_cons ..

theorem chars_symbol_cons {c : Char} {s : Symbol} (h : Symbol.ofChar? c = some s)
    (ts : List Token) : chars (.symbol s :: ts) = c :: chars ts := by
  simp [chars_cons, text, Symbol.text_of_ofChar? h]

def isAtom : Token → Bool
  | number _ | identifier _ => true
  | symbol _ => false

theorem isAtom_ofAtom (cs : List Char) : (ofAtom cs).isAtom = true := by
  unfold ofAtom
  split <;> rfl

def isBinarySign : Token → Bool
  | symbol (.operator .add) | symbol (.operator .sub) => true
  | _ => false

theorem isBinarySign_of_ofChar? {c : Char} {s : Symbol} (h : Symbol.ofChar? c = some s) :
    isBinarySign (.symbol s) = isSign c := by
  unfold Symbol.ofChar? at h
  split at h <;> cases h <;> rfl

/-- What is asked of an atom; `rest` are the tokens after it. -/
structure AtomFits (t : Token) (rest : List Token) : Prop where
  nonempty : t.text.toList ≠ []
  apart : ∀ u ∈ rest.head?, u.isAtom = false
  /-- A symbol inside is the sign of an exponent. -/
  inside : ∀ before c after, t.text.toList = before ++ c :: after → isSymbol c = true →
    isSign c = true ∧ IsOpenNumeral before ∧ ∃ d ∈ (after ++ chars rest).head?, d.isDigit = true
  /-- The sign of an exponent is inside. -/
  outside : IsOpenNumeral t.text.toList → ∀ u after, rest = u :: after → u.isBinarySign = true →
    ∀ d ∈ (chars after).head?, d.isDigit = false
  number : ∀ n, t = .number n → n.IsProper
  identifier : ∀ name, t = .identifier name → ¬ IsNumeral name.toList

/-- The tokens are the words of the characters. -/
structure IsSegmentation (cs : List Char) (ts : List Token) : Prop where
  lossless : chars ts = cs
  symbol : ∀ s, .symbol s ∈ ts → ∃ c, Symbol.ofChar? c = some s
  atom : ∀ t rest, t :: rest <:+ ts → t.isAtom = true → AtomFits t rest

/-! ## Reading word by word -/

theorem continuesAtom_iff {atom rest : List Char} {c : Char} :
    continuesAtom atom c rest = true ↔ isSign c = true ∧ IsOpenNumeral atom ∧
      ∃ d ∈ rest.head?, d.isDigit = true := by
  simp only [continuesAtom, Bool.and_eq_true, awaitsExponent_iff, Option.any_eq_true,
    Option.mem_def, and_comm, and_left_comm]

/-- The symbols in an atom belong to it. -/
def SymbolsInside (atom rest : List Char) : Prop :=
  ∀ before c after, atom = before ++ c :: after → isSymbol c = true →
    continuesAtom before c (after ++ rest) = true

/-- What follows an atom, if anything, is a symbol that does not belong to it. -/
def Ends (atom rest : List Char) : Prop :=
  ∀ c ∈ rest.head?, isSymbol c = true ∧ continuesAtom atom c rest.tail = false

inductive Cut : List Char → List Token → Prop
  | nil : Cut [] []
  | symbol {c : Char} {s : Symbol} {rest : List Char} {ts : List Token}
      (hs : Symbol.ofChar? c = some s) (h : Cut rest ts) : Cut (c :: rest) (.symbol s :: ts)
  | atom {atom rest : List Char} {ts : List Token} (hne : atom ≠ [])
      (hinside : SymbolsInside atom rest) (hends : Ends atom rest) (h : Cut rest ts) :
      Cut (atom ++ rest) (ofAtom atom :: ts)

theorem symbolsInside_start (rest : List Char) : SymbolsInside [].reverse rest := by
  simp [SymbolsInside]

theorem SymbolsInside.concat {atom rest : List Char} {c : Char}
    (h : SymbolsInside atom (c :: rest))
    (hc : isSymbol c = true → continuesAtom atom c rest = true) :
    SymbolsInside (atom ++ [c]) rest := by
  intro before d after hsplit hd
  rcases List.eq_nil_or_concat after with rfl | ⟨after, e, rfl⟩
  · obtain ⟨rfl, hcd⟩ := List.append_inj' hsplit rfl
    obtain rfl : c = d := by simpa using hcd
    exact hc hd
  · rw [List.concat_eq_append, ← List.cons_append, ← List.append_assoc] at hsplit
    obtain ⟨hatom, hce⟩ := List.append_inj' hsplit rfl
    obtain rfl : c = e := by simpa using hce
    simpa using h before d after hatom hd

theorem Cut.flush {atom rest : List Char} {ts : List Token} (h : Cut rest ts)
    (hinside : SymbolsInside atom.reverse rest) (hends : Ends atom.reverse rest) :
    Cut (atom.reverse ++ rest) (flush atom ++ ts) := by
  unfold Token.flush
  split
  · simp_all
  · exact .atom (by simp_all) hinside hends h

/-- The scanner reads word by word; `atom` is what it holds of the word that it is in. -/
theorem cut_scanFrom {atom cs : List Char} (h : SymbolsInside atom.reverse cs) :
    Cut (atom.reverse ++ cs) (scanFrom atom cs) := by
  induction cs generalizing atom with
  | nil => simpa [scanFrom] using Cut.nil.flush h (by simp [Ends])
  | cons c rest ih =>
    have hlonger : (isSymbol c = true → continuesAtom atom.reverse c rest = true) →
        Cut (atom.reverse ++ c :: rest) (scanFrom (c :: atom) rest) := by
      intro hc
      have hinside := h.concat hc
      rw [← List.reverse_cons] at hinside
      simpa using ih hinside
    unfold scanFrom
    split
    · rename_i hs
      exact hlonger fun hc => by simp [isSymbol, hs] at hc
    · rename_i s hs
      split
      · rename_i hc
        exact hlonger fun _ => hc
      · rename_i hc
        have hrest : Cut rest (scanFrom [] rest) := ih (symbolsInside_start rest)
        have hends : Ends atom.reverse (c :: rest) := by
          simpa [Ends] using And.intro (isSymbol_iff.2 ⟨s, hs⟩) hc
        exact (Cut.symbol hs hrest).flush h hends

theorem cut_scan (cs : List Char) : Cut cs (scan cs) := cut_scanFrom (symbolsInside_start cs)

theorem Cut.eq_scan {cs : List Char} {ts : List Token} (h : Cut cs ts) : ts = scan cs := by
  induction h with
  | nil => rfl
  | symbol hs _ ih => rw [scan_symbol_cons hs, ih]
  | @atom atom rest ts hne hinside hends _ ih =>
    have htogether : scan (atom ++ rest) = scanFrom (atom.reverse ++ []) rest :=
      scanFrom_together hinside
    have hword : scanFrom atom.reverse rest = Token.flush atom.reverse ++ scan rest :=
      scanFrom_of_end (by simpa [Ends] using hends)
    rw [htogether, List.append_nil, hword, flush_reverse hne, ← ih, List.singleton_append]

/-! ## Atoms among tokens -/

namespace AtomFits

variable {t : Token} {ts : List Token}

theorem ofAtom_text (h : AtomFits t ts) (hatom : t.isAtom = true) : ofAtom t.text.toList = t := by
  cases t with
  | symbol s => cases hatom
  | number n => simp [ofAtom, text, Numeral.text, Numeral.ofChars?_toChars (h.number n rfl)]
  | identifier name => simp [ofAtom, text, ofChars?_eq_none_iff.2 (h.identifier name rfl)]

theorem symbolsInside (h : AtomFits t ts) : SymbolsInside t.text.toList (chars ts) :=
  fun before c after hsplit hc => continuesAtom_iff.2 (h.inside before c after hsplit hc)

theorem ends (h : AtomFits t ts) (hsymbol : ∀ s, .symbol s ∈ ts → ∃ c, Symbol.ofChar? c = some s) :
    Ends t.text.toList (chars ts) := by
  cases ts with
  | nil => simp [Ends, chars]
  | cons u rest =>
    have hu : u.isAtom = false := h.apart u rfl
    cases u with
    | number n => cases hu
    | identifier name => cases hu
    | symbol s =>
      obtain ⟨c, hc⟩ := hsymbol s List.mem_cons_self
      rw [chars_symbol_cons hc]
      intro d hd
      obtain rfl : c = d := by simpa using hd
      refine ⟨isSymbol_iff.2 ⟨s, hc⟩, ?_⟩
      rw [List.tail_cons, ← Bool.not_eq_true, continuesAtom_iff]
      rintro ⟨hsign, hopen, e, he, hdigit⟩
      rw [← isBinarySign_of_ofChar? hc] at hsign
      rw [h.outside hopen _ rest rfl hsign e he] at hdigit
      cases hdigit

end AtomFits

/-- No atom begins with a symbol. -/
theorem isAtom_head {ts : List Token}
    (h : ∀ t rest, t :: rest <:+ ts → t.isAtom = true → AtomFits t rest)
    (hstart : ∀ c ∈ (chars ts).head?, isSymbol c = true) : ∀ t ∈ ts.head?, t.isAtom = false := by
  intro t ht
  obtain ⟨rest, rfl⟩ := List.head?_eq_some_iff.1 ht
  rw [← Bool.not_eq_true]
  intro hatom
  have hfits := h t rest (List.suffix_refl _) hatom
  obtain ⟨c, after, htext⟩ := List.exists_cons_of_ne_nil hfits.nonempty
  have hc : isSymbol c = true := hstart c (by simp [chars_cons, htext])
  obtain ⟨-, ⟨m, mark, -, -, hopen⟩, -⟩ := hfits.inside [] c after htext hc
  simp at hopen

theorem atomFits_ofAtom {atom : List Char} {ts : List Token} (hne : atom ≠ [])
    (hinside : SymbolsInside atom (chars ts)) (hends : Ends atom (chars ts))
    (hapart : ∀ t ∈ ts.head?, t.isAtom = false)
    (hsymbol : ∀ s, .symbol s ∈ ts → ∃ c, Symbol.ofChar? c = some s) :
    AtomFits (ofAtom atom) ts where
  nonempty := by rwa [text_ofAtom, String.toList_ofList]
  apart := hapart
  inside before c after htext hc := by
    rw [text_ofAtom, String.toList_ofList] at htext
    exact continuesAtom_iff.1 (hinside before c after htext hc)
  -- a sign after an open exponent would have been taken into the atom if a digit followed it
  outside hopen u after hts hsign d hd := by
    subst hts
    rw [text_ofAtom, String.toList_ofList] at hopen
    cases u with
    | number n => cases hsign
    | identifier name => cases hsign
    | symbol s =>
      obtain ⟨c, hc⟩ := hsymbol s List.mem_cons_self
      rw [chars_symbol_cons hc] at hends
      have hnot := (hends c rfl).2
      rw [isBinarySign_of_ofChar? hc] at hsign
      rw [← Bool.not_eq_true, continuesAtom_iff] at hnot
      rw [← Bool.not_eq_true]
      exact fun hdigit => hnot ⟨hsign, hopen, d, hd, hdigit⟩
  number n hn := by
    unfold ofAtom at hn
    split at hn
    · rename_i hread
      cases hn
      exact Numeral.isProper_of_ofChars? hread
    · cases hn
  identifier name hname := by
    unfold ofAtom at hname
    split at hname
    · cases hname
    · rename_i hread
      cases hname
      rw [String.toList_ofList]
      exact ofChars?_eq_none_iff.1 hread

/-! ## The one segmentation -/

theorem IsSegmentation.cut {cs : List Char} {ts : List Token} (h : IsSegmentation cs ts) :
    Cut cs ts := by
  obtain ⟨rfl, hsymbol, hatom⟩ := h
  induction ts with
  | nil => exact .nil
  | cons t rest ih =>
    have hsymbol' : ∀ s, .symbol s ∈ rest → ∃ c, Symbol.ofChar? c = some s := fun s hs =>
      hsymbol s (List.mem_cons_of_mem _ hs)
    have hrest : Cut (chars rest) rest :=
      ih hsymbol' fun u after hu => hatom u after (hu.trans (List.suffix_cons t rest))
    cases ht : t.isAtom with
    | true =>
      have hfits := hatom t rest (List.suffix_refl _) ht
      have hcut := Cut.atom hfits.nonempty hfits.symbolsInside (hfits.ends hsymbol') hrest
      rwa [hfits.ofAtom_text ht, ← chars_cons] at hcut
    | false =>
      cases t with
      | number n => cases ht
      | identifier name => cases ht
      | symbol s =>
        obtain ⟨c, hc⟩ := hsymbol s List.mem_cons_self
        rw [chars_symbol_cons hc]
        exact .symbol hc hrest

theorem Cut.isSegmentation {cs : List Char} {ts : List Token} (h : Cut cs ts) :
    IsSegmentation cs ts := by
  induction h with
  | nil => exact ⟨rfl, by simp, by simp⟩
  | @symbol c s rest ts hs _ ih =>
    refine ⟨by rw [chars_symbol_cons hs, ih.lossless], fun s' hs' => ?_,
      fun t after hsuffix ht => ?_⟩
    · rcases List.mem_cons.1 hs' with heq | hmem
      · cases heq
        exact ⟨c, hs⟩
      · exact ih.symbol s' hmem
    · rcases List.suffix_cons_iff.1 hsuffix with heq | hsuffix
      · cases heq
        cases ht
      · exact ih.atom t after hsuffix ht
  | @atom atom rest ts hne hinside hends _ ih =>
    obtain ⟨rfl, hsymbol, hatom⟩ := ih
    refine ⟨by rw [chars_cons, text_ofAtom, String.toList_ofList], fun s hs => ?_,
      fun t after hsuffix ht => ?_⟩
    · rcases List.mem_cons.1 hs with heq | hmem
      · have hno := isAtom_ofAtom atom
        rw [← heq] at hno
        cases hno
      · exact hsymbol s hmem
    · rcases List.suffix_cons_iff.1 hsuffix with heq | hsuffix
      · cases heq
        have hapart := isAtom_head hatom fun c hc => (hends c hc).1
        exact atomFits_ofAtom hne hinside hends hapart hsymbol
      · exact hatom t after hsuffix ht

/-- The scanner cuts a text in the one way that there is. -/
theorem isSegmentation_iff_eq_scan {cs : List Char} {ts : List Token} :
    IsSegmentation cs ts ↔ ts = scan cs := by
  constructor
  · exact fun h => h.cut.eq_scan
  · rintro rfl
    exact (cut_scan cs).isSegmentation

example : (scan "1e-5e-3+.e-1".toList).map text = ["1e-5e", "-", "3", "+", ".e", "-", "1"] := by
  decide +kernel

end Reckoner.Token
