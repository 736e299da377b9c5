import Reckoner.MathFunction
import Reckoner.Proofs.Expression.Basic

/-!
# Well-formed infix

`WellFormed scope part tokens` is the grammar of infix: operands with one binary operator between
each two of them, signs before an operand and factorials after it, and commas between the arguments
of a function only. It says nothing of how tightly an operator binds and of how many arguments a
function takes.

`Reads scope p opened tokens` reads tokens from left to right: `p` says what may stand next, and
`opened` what the open parentheses hold, the innermost first. Both come to the same
(`wellFormed_iff_reads`).
-/

namespace Reckoner.Grammar

/-- A name that is not bound and that is one of the calculator's functions. -/
def IsFunction (scope : Scope) (name : String) : Prop :=
  scope.value? name = none ∧ (Registry.builtin.lookup name).isSome

/-- The parts of an expression. -/
inductive Part where
  | operand
  | expression
  | arguments

inductive WellFormed (scope : Scope) : Part → List Token → Prop
  | number (n : Numeral) : WellFormed scope .operand [.number n]
  | name {x : String} (h : (scope.value? x).isSome) : WellFormed scope .operand [.identifier x]
  | group {ts : List Token} (h : WellFormed scope .expression ts) :
      WellFormed scope .operand (.symbol .opening :: ts ++ [.symbol .closing])
  | call {f : String} {ts : List Token} (hf : IsFunction scope f)
      (h : WellFormed scope .arguments ts) :
      WellFormed scope .operand (.identifier f :: .symbol .opening :: ts ++ [.symbol .closing])
  | signed (s : Sign) {ts : List Token} (h : WellFormed scope .operand ts) :
      WellFormed scope .operand (.symbol (.operator s.unary) :: ts)
  | factorial {ts : List Token} (h : WellFormed scope .operand ts) :
      WellFormed scope .operand (ts ++ [.symbol (.operator .fact)])
  | single {ts : List Token} (h : WellFormed scope .operand ts) : WellFormed scope .expression ts
  | operation {left right : List Token} {op : Operator} (hleft : WellFormed scope .operand left)
      (hop : op.arity = 2) (hright : WellFormed scope .expression right) :
      WellFormed scope .expression (left ++ .symbol (.operator op) :: right)
  | argument {ts : List Token} (h : WellFormed scope .expression ts) :
      WellFormed scope .arguments ts
  | further {first rest : List Token} (hfirst : WellFormed scope .expression first)
      (hrest : WellFormed scope .arguments rest) :
      WellFormed scope .arguments (first ++ .symbol .comma :: rest)

/-- What may stand next. -/
inductive Position where
  /-- An operand. -/
  | before
  /-- The arguments of the function that has just been named. -/
  | named
  /-- What follows an operand. -/
  | after
  deriving DecidableEq, Repr

/-- What an open parenthesis holds: an expression, or the arguments of a function. -/
inductive Bracket where
  | group
  | call
  deriving DecidableEq, Repr

inductive Reads (scope : Scope) : Position → List Bracket → List Token → Prop
  | done : Reads scope .after [] []
  | number (n : Numeral) {opened : List Bracket} {rest : List Token}
      (h : Reads scope .after opened rest) : Reads scope .before opened (.number n :: rest)
  | name {x : String} (hx : (scope.value? x).isSome) {opened : List Bracket} {rest : List Token}
      (h : Reads scope .after opened rest) : Reads scope .before opened (.identifier x :: rest)
  | function {f : String} (hf : IsFunction scope f) {opened : List Bracket} {rest : List Token}
      (h : Reads scope .named opened rest) : Reads scope .before opened (.identifier f :: rest)
  | sign (s : Sign) {opened : List Bracket} {rest : List Token}
      (h : Reads scope .before opened rest) :
      Reads scope .before opened (.symbol (.operator s.unary) :: rest)
  | group {opened : List Bracket} {rest : List Token}
      (h : Reads scope .before (.group :: opened) rest) :
      Reads scope .before opened (.symbol .opening :: rest)
  | call {opened : List Bracket} {rest : List Token}
      (h : Reads scope .before (.call :: opened) rest) :
      Reads scope .named opened (.symbol .opening :: rest)
  | operator {op : Operator} (hop : op.arity = 2) {opened : List Bracket} {rest : List Token}
      (h : Reads scope .before opened rest) :
      Reads scope .after opened (.symbol (.operator op) :: rest)
  | factorial {opened : List Bracket} {rest : List Token} (h : Reads scope .after opened rest) :
      Reads scope .after opened (.symbol (.operator .fact) :: rest)
  | comma {opened : List Bracket} {rest : List Token}
      (h : Reads scope .before (.call :: opened) rest) :
      Reads scope .after (.call :: opened) (.symbol .comma :: rest)
  | closing (b : Bracket) {opened : List Bracket} {rest : List Token}
      (h : Reads scope .after opened rest) :
      Reads scope .after (b :: opened) (.symbol .closing :: rest)

variable {scope : Scope}

/-! ## What is well-formed can be read -/

/-- Arguments are read inside the parentheses of a call only. -/
theorem WellFormed.reads_append {part : Part} {ts : List Token} (h : WellFormed scope part ts)
    {opened : List Bracket} (hopened : part = .arguments → opened.head? = some .call)
    {rest : List Token} (hrest : Reads scope .after opened rest) :
    Reads scope .before opened (ts ++ rest) := by
  induction h generalizing opened rest with
  | number n => exact .number n hrest
  | name hx => exact .name hx hrest
  | group _ ih =>
    rw [List.append_assoc]
    exact .group (ih nofun (.closing .group hrest))
  | call hf _ ih =>
    rw [List.append_assoc]
    exact .function hf (.call (ih (fun _ => rfl) (.closing .call hrest)))
  | signed s _ ih => exact .sign s (ih nofun hrest)
  | factorial _ ih =>
    rw [List.append_assoc]
    exact ih nofun (.factorial hrest)
  | single _ ih => exact ih nofun hrest
  | operation _ hop _ ihleft ihright =>
    rw [List.append_assoc]
    exact ihleft nofun (.operator hop (ihright nofun hrest))
  | argument _ ih => exact ih nofun hrest
  | further _ _ ihfirst ihrest =>
    obtain ⟨outer, rfl⟩ : ∃ outer, opened = .call :: outer := List.head?_eq_some_iff.1 (hopened rfl)
    rw [List.append_assoc]
    exact ihfirst nofun (.comma (ihrest (fun _ => rfl) hrest))

/-! ## What can be read is well-formed -/

def Bracket.part : Bracket → Part
  | group => .expression
  | call => .arguments

namespace WellFormed

theorem of_operand {ts : List Token} (h : WellFormed scope .operand ts) (b : Bracket) :
    WellFormed scope b.part ts := by
  cases b with
  | group => exact .single h
  | call => exact .argument (.single h)

/-- A sign belongs to the first operand. -/
theorem sign (s : Sign) {b : Bracket} {ts : List Token} (h : WellFormed scope b.part ts) :
    WellFormed scope b.part (.symbol (.operator s.unary) :: ts) := by
  have hexpression : ∀ {ts : List Token}, WellFormed scope .expression ts →
      WellFormed scope .expression (.symbol (.operator s.unary) :: ts) := by
    intro ts h
    cases h with
    | single h => exact .single (.signed s h)
    | operation hleft hop hright => exact .operation (.signed s hleft) hop hright
  cases b with
  | group => exact hexpression h
  | call =>
    cases h with
    | argument h => exact .argument (hexpression h)
    | further hfirst hrest => exact .further (hexpression hfirst) hrest

theorem operation_left {left : List Token} (hleft : WellFormed scope .operand left) {op : Operator}
    (hop : op.arity = 2) {b : Bracket} {ts : List Token} (h : WellFormed scope b.part ts) :
    WellFormed scope b.part (left ++ .symbol (.operator op) :: ts) := by
  cases b with
  | group => exact .operation hleft hop h
  | call =>
    cases h with
    | argument h => exact .argument (.operation hleft hop h)
    | further hfirst hrest =>
      rw [← List.cons_append, ← List.append_assoc]
      exact .further (.operation hleft hop hfirst) hrest

end WellFormed

/-- The tokens go on after an operand. -/
def Tail (scope : Scope) (b : Bracket) (ts : List Token) : Prop :=
  ∀ first, WellFormed scope .operand first → WellFormed scope b.part (first ++ ts)

/-- The tokens fill what is open, and `P` holds of those that fill the innermost parentheses. -/
def Fills (scope : Scope) (P : Bracket → List Token → Prop) : List Bracket → List Token → Prop
  | [], ts => P .group ts
  | b :: outer, ts => ∃ inner rest, ts = inner ++ .symbol .closing :: rest ∧ P b inner ∧
      Fills scope (Tail scope) outer rest

theorem Fills.append {P Q : Bracket → List Token → Prop} (first : List Token)
    (h : ∀ b ts, P b ts → Q b (first ++ ts)) {opened : List Bracket} {ts : List Token}
    (hfills : Fills scope P opened ts) : Fills scope Q opened (first ++ ts) := by
  cases opened with
  | nil => exact h .group ts hfills
  | cons b outer =>
    obtain ⟨inner, rest, rfl, hinner, hrest⟩ := hfills
    exact ⟨first ++ inner, rest, (List.append_assoc ..).symm, h b inner hinner, hrest⟩

/-- What the innermost parentheses still hold, wherever the reader stands. -/
def Rest (scope : Scope) : Position → Bracket → List Token → Prop
  | .before, b, ts => WellFormed scope b.part ts
  | .named, b, ts => ∀ f, IsFunction scope f → WellFormed scope b.part (.identifier f :: ts)
  | .after, b, ts => Tail scope b ts

theorem Reads.fills {p : Position} {opened : List Bracket} {ts : List Token}
    (h : Reads scope p opened ts) : Fills scope (Rest scope p) opened ts := by
  induction h with
  | done =>
    intro first hfirst
    rw [List.append_nil]
    exact hfirst.of_operand .group
  | number n _ ih => exact ih.append [_] fun _ _ htail => htail _ (.number n)
  | name hx _ ih => exact ih.append [_] fun _ _ htail => htail _ (.name hx)
  | function hf _ ih => exact ih.append [_] fun _ _ hnamed => hnamed _ hf
  | sign s _ ih => exact ih.append [_] fun _ _ hts => hts.sign s
  | group _ ih =>
    obtain ⟨inner, rest, rfl, hinner, hrest⟩ := ih
    let operand : List Token := .symbol .opening :: inner ++ [.symbol .closing]
    have hoperand : ∀ b ts, Tail scope b ts → Rest scope .before b (operand ++ ts) :=
      fun b ts htail => htail operand (.group hinner)
    simpa [operand] using hrest.append operand hoperand
  | call _ ih =>
    -- the name of the function has been read, so the parentheses are not an operand by themselves
    obtain ⟨inner, rest, rfl, hinner, hrest⟩ := ih
    let arguments : List Token := .symbol .opening :: inner ++ [.symbol .closing]
    have harguments : ∀ b ts, Tail scope b ts → Rest scope .named b (arguments ++ ts) :=
      fun b ts htail f hf => htail (.identifier f :: arguments) (.call hf hinner)
    simpa [arguments] using hrest.append arguments harguments
  | operator hop _ ih =>
    exact ih.append [_] fun _ _ hts first hfirst => hfirst.operation_left hop hts
  | factorial _ ih =>
    refine ih.append [_] fun _ _ htail first hfirst => ?_
    rw [← List.append_assoc]
    exact htail _ hfirst.factorial
  | comma _ ih =>
    obtain ⟨inner, rest, rfl, hinner, hrest⟩ := ih
    exact ⟨.symbol .comma :: inner, rest, rfl,
      fun first hfirst => .further (.single hfirst) hinner, hrest⟩
  | closing b _ ih =>
    refine ⟨[], _, rfl, fun first hfirst => ?_, ih⟩
    rw [List.append_nil]
    exact hfirst.of_operand b

theorem wellFormed_iff_reads {ts : List Token} :
    WellFormed scope .expression ts ↔ Reads scope .before [] ts := by
  constructor
  · intro h
    rw [← List.append_nil ts]
    exact h.reads_append nofun .done
  · exact fun h => h.fills

end Reckoner.Grammar
