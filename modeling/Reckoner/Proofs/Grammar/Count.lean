import Reckoner.Proofs.Grammar.Basic
import Reckoner.Proofs.Refusal
import Reckoner.Proofs.Token.Tokenize

/-!
# Well-formed by counting

An operand that has ended is used up by the binary operator or the comma after it. Where no operand
begins directly after another has ended, no token makes up for one that is wasted (`ended_le`), and
so there are never more operands than those separators ask for (`operands_le`). If there are as many
and every comma is inside a call, then nothing is wasted: each token is one that can be read next
(`move_of_ended_le`), up to the end (`wellFormed_iff_counts`).
-/

namespace Reckoner.Grammar

/-! ## Neighbours -/

/-- Whether an operand begins with the token, a sign before it apart. -/
def begins : Token → Bool
  | .number _ | .identifier _ | .symbol .opening => true
  | .symbol (.operator _) | .symbol .comma | .symbol .closing => false

/-- What may stand after a token. -/
def position (scope : Scope) : Token → Position
  | .number _ => .after
  | .identifier x => if (scope.value? x).isSome then .after else .named
  | .symbol s => if s.endsOperand then .after else .before

/-- No operand begins directly where another has ended, but for the parentheses after the name of a
function. -/
def Apart (scope : Scope) (t u : Token) : Prop :=
  t.endsOperand = true → begins u = true → position scope t = .named ∧ u = .symbol .opening

instance (scope : Scope) (t u : Token) : Decidable (Apart scope t u) :=
  inferInstanceAs (Decidable (_ → _ → _ ∧ _))

/-- Whether a token may stand at a position, for all that the token before it says. -/
def Fits : Position → Token → Prop
  | .before, _ => True
  | .named, t => (begins t = true → t = .symbol .opening) ∧ t.isUnarySign = false
  | .after, t => begins t = false ∧ t.isUnarySign = false

theorem fits_position_iff {scope : Scope} {t u : Token} :
    Fits (position scope t) u ↔ Apart scope t u ∧ Token.SignApart t u := by
  cases t with
  | number n => simp [position, Fits, Apart, Token.SignApart, Token.endsOperand]
  | identifier x =>
    cases hx : (scope.value? x).isSome <;>
      simp [position, Fits, Apart, Token.SignApart, Token.endsOperand, hx]
  | symbol s =>
    cases hs : s.endsOperand <;>
      simp [position, Fits, Apart, Token.SignApart, Token.endsOperand, hs]

variable {scope : Scope}

/-- Every token may stand where it does, for all that the token before it says. -/
def Spaced (scope : Scope) : Position → List Token → Prop
  | _, [] => True
  | p, t :: ts => Fits p t ∧ Spaced scope (position scope t) ts

theorem spaced_position_iff {t : Token} {ts : List Token} : Spaced scope (position scope t) ts ↔
    (t :: ts).IsChain (Apart scope) ∧ (t :: ts).IsChain Token.SignApart := by
  induction ts generalizing t with
  | nil => simp [Spaced]
  | cons u rest ih =>
    rw [Spaced, fits_position_iff, ih, List.isChain_cons_cons, List.isChain_cons_cons]
    tauto

theorem spaced_before_iff {ts : List Token} : Spaced scope .before ts ↔
    ts.IsChain (Apart scope) ∧ ts.IsChain Token.SignApart := by
  cases ts with
  | nil => simp [Spaced]
  | cons t rest => simp only [Spaced, Fits, true_and, spaced_position_iff]

/-! ## Commas -/

/-- What is open after one more token. -/
def enclose (p : Position) (opened : List Bracket) : Token → List Bracket
  | .symbol .opening => (if p = .named then .call else .group) :: opened
  | .symbol .closing => opened.tail
  | _ => opened

/-- Every comma stands directly inside the parentheses after the name of a function. -/
def CommasEnclosed (scope : Scope) : Position → List Bracket → List Token → Prop
  | _, _, [] => True
  | p, opened, t :: ts => (t = .symbol .comma → opened.head? = some .call) ∧
      CommasEnclosed scope (position scope t) (enclose p opened t) ts

instance CommasEnclosed.decidable : ∀ (p : Position) (opened : List Bracket) (ts : List Token),
    Decidable (CommasEnclosed scope p opened ts)
  | _, _, [] => .isTrue trivial
  | p, opened, t :: ts =>
    have := CommasEnclosed.decidable (position scope t) (enclose p opened t) ts
    inferInstanceAs (Decidable (_ ∧ _))

/-! ## Counts -/

/-- Whether a token is an operand by itself. -/
def isOperand (scope : Scope) : Token → Bool
  | .number _ => true
  | .identifier x => (scope.value? x).isSome
  | .symbol _ => false

/-- Whether a token is a binary operator. -/
def isBinary : Token → Bool
  | .symbol (.operator op) => op.arity == 2
  | .symbol .comma | .symbol .opening | .symbol .closing | .number _ | .identifier _ => false

/-- Whether a token stands between operands. -/
def separates (t : Token) : Bool := isBinary t || t == .symbol .comma

/-- The operands that have just ended. -/
def Position.ended : Position → Nat
  | after => 1
  | before | named => 0

theorem countP_separates (ts : List Token) :
    ts.countP separates = ts.countP isBinary + ts.count (.symbol .comma) := by
  induction ts with
  | nil => rfl
  | cons t rest ih =>
    rw [List.countP_cons, List.countP_cons, List.count_cons, ih]
    cases t with
    | number _ | identifier _ => simp [separates, isBinary]
    | symbol s => cases s <;> simp [separates, isBinary] <;> omega

/-- A token that fits ends an operand only if one has just ended or it is one itself. -/
theorem ended_le (scope : Scope) {p : Position} {t : Token} (h : Fits p t) :
    (if isOperand scope t then 1 else 0) + p.ended ≤
      (if separates t then 1 else 0) + (position scope t).ended := by
  cases t with
  | number _ => cases p <;> simp_all [Fits, begins, isOperand, position, Position.ended]
  | identifier x =>
    cases hx : (scope.value? x).isSome <;> cases p <;>
      simp_all [Fits, begins, isOperand, position, Position.ended]
  | symbol s =>
    cases s with
    | operator op =>
      cases op <;> cases p <;> simp_all [Fits, Token.isUnarySign, isOperand, separates, isBinary,
        Operator.arity, position, Symbol.endsOperand, Position.ended]
    | comma | opening | closing =>
      cases p <;> simp_all [Fits, begins, isOperand, separates, position, Symbol.endsOperand,
        Position.ended]

theorem operands_le {p : Position} {ts : List Token} (h : Spaced scope p ts) :
    ts.countP (isOperand scope) + p.ended ≤ ts.countP separates + 1 := by
  induction ts generalizing p with
  | nil => cases p <;> simp [Position.ended]
  | cons t rest ih =>
    have hrest := ih h.2
    have ht := ended_le scope h.1
    rw [List.countP_cons, List.countP_cons]
    omega

/-- A token that is read next, as far as its neighbours say. -/
inductive Move : Position → Token → Prop
  | number (n : Numeral) : Move .before (.number n)
  | identifier (x : String) : Move .before (.identifier x)
  | sign (s : Sign) : Move .before (.symbol (.operator s.unary))
  | group : Move .before (.symbol .opening)
  | call : Move .named (.symbol .opening)
  | operator {op : Operator} (hop : op.arity = 2) : Move .after (.symbol (.operator op))
  | factorial : Move .after (.symbol (.operator .fact))
  | comma : Move .after (.symbol .comma)
  | closing : Move .after (.symbol .closing)

theorem position_operator {op : Operator} (hop : op.arity = 2) :
    position scope (.symbol (.operator op)) = .before := by
  cases op <;> first | rfl | cases hop

theorem Move.fits {p : Position} {t : Token} (h : Move p t) : Fits p t := by
  cases h with
  | number | identifier | sign | group => trivial
  | call | factorial | comma | closing => exact ⟨by simp [begins], rfl⟩
  | @operator op hop => cases op <;> first | exact ⟨rfl, rfl⟩ | cases hop

theorem Move.ended_eq (scope : Scope) {p : Position} {t : Token} (h : Move p t) :
    (if isOperand scope t then 1 else 0) + p.ended =
      (if separates t then 1 else 0) + (position scope t).ended := by
  cases h with
  | number | call | group | factorial | comma | closing => rfl
  | identifier x =>
    cases hx : (scope.value? x).isSome <;>
      simp [isOperand, separates, isBinary, position, Position.ended, hx]
  | sign s => cases s <;> rfl
  | operator hop =>
    rw [position_operator hop]
    simp [isOperand, separates, isBinary, Position.ended, hop]

/-- A token that fits and leaves out no operand can be read. -/
theorem move_of_ended_le (scope : Scope) {p : Position} {t : Token} (h : Fits p t)
    (hended : (if separates t then 1 else 0) + (position scope t).ended ≤
      (if isOperand scope t then 1 else 0) + p.ended) : Move p t := by
  -- where a token fits without being read there, it leaves out an operand
  cases t with
  | number n =>
    cases p with
    | before => exact .number n
    | named | after => simp [Fits, begins] at h
  | identifier x =>
    cases p with
    | before => exact .identifier x
    | named | after => simp [Fits, begins] at h
  | symbol s =>
    cases s with
    | opening =>
      cases p with
      | before => exact .group
      | named => exact .call
      | after => simp [Fits, begins] at h
    | comma =>
      cases p with
      | after => exact .comma
      | before | named => simp [separates, isOperand, Position.ended] at hended
    | closing =>
      cases p with
      | after => exact .closing
      | before | named =>
        simp [position, Symbol.endsOperand, isOperand, Position.ended] at hended
    | operator op =>
      cases op with
      | pos | neg =>
        cases p with
        | before => first | exact .sign .plus | exact .sign .minus
        | named | after => simp [Fits, Token.isUnarySign] at h
      | fact =>
        cases p with
        | after => exact .factorial
        | before | named =>
          simp [position, Symbol.endsOperand, isOperand, Position.ended] at hended
      | add | sub | mul | div | pow =>
        cases p with
        | after => exact .operator rfl
        | before | named =>
          simp [separates, isBinary, Operator.arity, isOperand, Position.ended] at hended

/-! ## Reading by counting -/

theorem length_enclose (p : Position) {opened : List Bracket} {t : Token} {depth : Nat}
    (h : nestToken? opened.length t = some depth) : (enclose p opened t).length = depth := by
  cases t with
  | number _ | identifier _ => simpa [nestToken?, enclose] using h
  | symbol s =>
    cases s with
    | opening | comma | operator _ => simpa [nestToken?, enclose] using h
    | closing => cases opened <;> simp_all [nestToken?, enclose]

/-- What makes tokens readable, seen from the neighbours of each and from what they count. -/
structure Counts (scope : Scope) (p : Position) (opened : List Bracket) (ts : List Token) :
    Prop where
  spaced : Spaced scope p ts
  commas : CommasEnclosed scope p opened ts
  count : ts.countP (isOperand scope) + p.ended = ts.countP separates + 1

theorem Counts.cons {p : Position} {opened : List Bracket} {t : Token} {ts : List Token}
    (hmove : Move p t) (hcomma : t = .symbol .comma → opened.head? = some .call)
    (h : Counts scope (position scope t) (enclose p opened t) ts) :
    Counts scope p opened (t :: ts) where
  spaced := ⟨hmove.fits, h.spaced⟩
  commas := ⟨hcomma, h.commas⟩
  count := by
    have hcount := h.count
    have hended := hmove.ended_eq scope
    rw [List.countP_cons, List.countP_cons]
    omega

theorem Reads.counts {p : Position} {opened : List Bracket} {ts : List Token}
    (h : Reads scope p opened ts) : Counts scope p opened ts := by
  induction h with
  | done => exact ⟨trivial, trivial, rfl⟩
  | number n _ ih => exact .cons (.number n) nofun ih
  | name hx _ ih =>
    refine .cons (.identifier _) nofun ?_
    rw [position, if_pos hx]
    exact ih
  | function hf _ ih =>
    refine .cons (.identifier _) nofun ?_
    rw [position, if_neg (by simp [hf.1])]
    exact ih
  | sign s _ ih => cases s <;> exact .cons (.sign _) nofun ih
  | group _ ih => exact .cons .group nofun ih
  | call _ ih => exact .cons .call nofun ih
  | operator hop _ ih =>
    refine .cons (.operator hop) nofun ?_
    rw [position_operator hop]
    exact ih
  | factorial _ ih => exact .cons .factorial nofun ih
  | comma _ ih => exact .cons .comma (fun _ => rfl) ih
  | closing b _ ih => exact .cons .closing nofun ih

/-- Where the parentheses match, counting is enough. -/
theorem Counts.reads {p : Position} {opened : List Bracket} {ts : List Token}
    (h : Counts scope p opened ts) (hnest : ts.foldlM nestToken? opened.length = some 0)
    (hnames : ∀ x, .identifier x ∈ ts → (scope.value? x).isSome ∨ IsFunction scope x) :
    Reads scope p opened ts := by
  induction ts generalizing p opened with
  | nil =>
    obtain rfl : opened = [] := List.length_eq_zero_iff.1 (Option.some.inj hnest)
    cases p with
    | after => exact .done
    | before | named => cases h.count
  | cons t rest ih =>
    obtain ⟨⟨hfits, hspaced⟩, ⟨hcomma, hcommas⟩, hcount⟩ := h
    rw [List.foldlM_cons] at hnest
    obtain ⟨depth, hdepth, hnest⟩ := Option.bind_eq_some_iff.1 hnest
    rw [← length_enclose p hdepth] at hnest
    -- nothing is wasted: neither this token nor those after it can make up for a missing operand
    have hle := operands_le hspaced
    have ht := ended_le scope hfits
    rw [List.countP_cons, List.countP_cons] at hcount
    have hmove : Move p t := move_of_ended_le scope hfits (by omega)
    have hread : Reads scope (position scope t) (enclose p opened t) rest :=
      ih ⟨hspaced, hcommas, by omega⟩ hnest fun x hx => hnames x (List.mem_cons_of_mem _ hx)
    cases hmove with
    | number n => exact .number n hread
    | identifier x =>
      by_cases hx : (scope.value? x).isSome
      · rw [position, if_pos hx] at hread
        exact .name hx hread
      · rw [position, if_neg hx] at hread
        exact .function ((hnames x List.mem_cons_self).resolve_left hx) hread
    | sign s => cases s <;> exact .sign _ hread
    | group => exact .group hread
    | call => exact .call hread
    | operator hop =>
      rw [position_operator hop] at hread
      exact .operator hop hread
    | factorial => exact .factorial hread
    | comma =>
      obtain ⟨outer, rfl⟩ := List.head?_eq_some_iff.1 (hcomma rfl)
      exact .comma hread
    | closing =>
      cases opened with
      | nil => cases hdepth
      | cons b outer => exact .closing b hread

theorem wellFormed_iff_counts {ts : List Token} (hsigns : ts.IsChain Token.SignApart)
    (hnest : ts.foldlM nestToken? 0 = some 0)
    (hnames : ∀ x, .identifier x ∈ ts → (scope.value? x).isSome ∨ IsFunction scope x) :
    WellFormed scope .expression ts ↔ ts.IsChain (Apart scope) ∧
      CommasEnclosed scope .before [] ts ∧
      ts.countP (isOperand scope) = ts.countP isBinary + ts.count (.symbol .comma) + 1 := by
  rw [wellFormed_iff_reads, ← countP_separates]
  constructor
  · intro h
    obtain ⟨hspaced, hcommas, hcount⟩ := h.counts
    exact ⟨(spaced_before_iff.1 hspaced).1, hcommas, hcount⟩
  · rintro ⟨happart, hcommas, hcount⟩
    exact Counts.reads ⟨spaced_before_iff.2 ⟨happart, hsigns⟩, hcommas, hcount⟩ hnest hnames

end Reckoner.Grammar
