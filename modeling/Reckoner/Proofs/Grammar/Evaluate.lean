import Reckoner.Proofs.Grammar.Count
import Reckoner.Proofs.Postfix.Items

/-!
# What is given a value

An expression with a value has as many operands as its operators and functions take together
(`countP_isOperand`): its order is complete, and an order forgets nothing of its tokens but
parentheses and commas. So little is asked that not everything with a value is well-formed
(`evaluate_not_wellFormed`); `wellFormed_iff_of_evaluate` says what is missing.
-/

namespace Reckoner.Grammar

open Postfix

variable {scope : Scope}

/-- The arguments that a function takes besides the first. -/
def furtherArguments (scope : Scope) : Token → Nat
  | .identifier x => (scope.resolve x).arity .builtin - 1
  | .number _ | .symbol _ => 0

theorem arity_function_pos (name : String) : 0 < (Item.function name).arity .builtin := by
  rw [Item.arity]
  cases hf : Registry.builtin.lookup name with
  | none => exact one_pos
  | some f => exact Registry.arity_pos hf

/-- What the item of a token takes, told by the token. -/
theorem arity_itemsOf (scope : Scope) (t : Token) :
    (if isOperand scope t then 1 else 0) + ((itemsOf scope t).map (Item.arity .builtin)).sum =
      (if isBinary t then 1 else 0) + furtherArguments scope t + (itemsOf scope t).length := by
  cases t with
  | number n => rfl
  | identifier x =>
    cases hvalue : scope.value? x with
    | some v =>
      simp [isOperand, isBinary, furtherArguments, itemsOf, Scope.resolve_eq, hvalue, Item.arity]
    | none =>
      have hpos := arity_function_pos x
      simp only [isOperand, isBinary, furtherArguments, itemsOf, Scope.resolve_eq, hvalue,
        Option.elim_none, Option.isSome_none, Bool.false_eq_true, if_false, List.map_singleton,
        List.sum_singleton, List.length_singleton]
      omega
  | symbol s =>
    cases s with
    | comma | opening | closing => rfl
    | operator op => cases op <;> rfl

theorem arities_itemsOf (scope : Scope) (tokens : List Token) :
    tokens.countP (isOperand scope) +
      ((tokens.flatMap (itemsOf scope)).map (Item.arity .builtin)).sum =
        tokens.countP isBinary + (tokens.map (furtherArguments scope)).sum +
          (tokens.flatMap (itemsOf scope)).length := by
  induction tokens with
  | nil => rfl
  | cons t rest ih =>
    have ht := arity_itemsOf scope t
    simp only [List.countP_cons, List.flatMap_cons, List.map_append, List.sum_append,
      List.map_cons, List.sum_cons, List.length_append]
    omega

/-- A complete order has one operand more than its operators and functions use up. -/
theorem countP_isOperand {tokens : List Token} {items : List Item}
    (horder : ofTokens scope tokens = .ok items) (hcomplete : isComplete .builtin items = true) :
    tokens.countP (isOperand scope) =
      tokens.countP isBinary + (tokens.map (furtherArguments scope)).sum + 1 := by
  have hitems : 1 + (items.map (Item.arity .builtin)).sum = items.length := by
    have hdepth : items.foldlM (deepen .builtin) 0 = some 1 := beq_iff_eq.1 hcomplete
    simpa using depth_add_arities hdepth
  have hperm := perm_ofTokens horder
  have htokens := arities_itemsOf scope tokens
  rw [← (hperm.map _).sum_eq, ← hperm.length_eq] at htokens
  omega

/-- A name that an order holds as a function is the name of one. -/
theorem bound_or_function {tokens : List Token} {items : List Item}
    (horder : ofTokens scope tokens = .ok items)
    (hregistered : ∀ item ∈ items, item.IsRegistered .builtin) {x : String}
    (hx : .identifier x ∈ tokens) : (scope.value? x).isSome ∨ IsFunction scope x := by
  cases hvalue : scope.value? x with
  | some v => exact .inl rfl
  | none => exact .inr ⟨hvalue, hregistered _ ((function_mem_iff horder).2 ⟨hx, hvalue⟩)⟩

/-- An expression with a value has matching parentheses, names that mean something and as many
operands as it takes. It is well-formed just if its operands stand apart and its commas are those
between the arguments of its functions. -/
theorem wellFormed_iff_of_evaluate {vars : Variables} {text : String} {v : Float}
    (h : evaluate vars text = .ok v) :
    ∃ tokens, tokenize reservedCharacters text = .ok tokens ∧
      (∀ x, .identifier x ∈ tokens →
        (Scope.value? { vars } x).isSome ∨ IsFunction { vars } x) ∧
      tokens.foldlM nestToken? 0 = some 0 ∧
      tokens.countP (isOperand { vars }) =
        tokens.countP isBinary + (tokens.map (furtherArguments { vars })).sum + 1 ∧
      (WellFormed { vars } .expression tokens ↔ tokens.IsChain (Apart { vars }) ∧
        CommasEnclosed { vars } .before [] tokens ∧
        tokens.count (.symbol .comma) = (tokens.map (furtherArguments { vars })).sum) := by
  obtain ⟨hsolid, hreserved, hvalue⟩ := evaluate_eq_ok_iff.1 h
  obtain ⟨items, horder, hvalue⟩ := evaluateTokens_eq_ok_iff.1 hvalue
  obtain ⟨hregistered, hcomplete⟩ := isComplete_of_value hvalue
  have htokens := tokenize_of_plain hsolid hreserved
  have hsigns := Token.isChain_tokensFrom (solid text)
  generalize Token.tokensFrom false (solid text) = tokens at horder htokens hsigns
  have hnames : ∀ x, .identifier x ∈ tokens →
      (Scope.value? { vars } x).isSome ∨ IsFunction { vars } x :=
    fun x hx => bound_or_function horder hregistered hx
  have hnest : tokens.foldlM nestToken? 0 = some 0 := by
    by_contra hnot
    rw [ofTokens_of_not_nested hnot] at horder
    cases horder
  have hcount := countP_isOperand horder hcomplete
  refine ⟨tokens, htokens, hnames, hnest, hcount, ?_⟩
  rw [wellFormed_iff_counts hsigns hnest hnames, hcount]
  -- the operands have been counted, so only the commas are left to compare
  refine and_congr_right fun _ => and_congr_right fun _ => ?_
  omega

/-- A sign, a call with two arguments, a group and a factorial. -/
theorem wellFormed_iff_of_evaluate_mod :
    let vars : Variables := .insert ∅ "x" 1
    let text := "-mod(7,(x+2)!)*2"
    evaluate vars text = .ok (-2) ∧ ∃ tokens, tokenize reservedCharacters text = .ok tokens ∧
      WellFormed { vars } .expression tokens := by
  intro vars text
  have hvalue : evaluate vars text = .ok (-2) := by decide +kernel
  obtain ⟨tokens, htokens, -, -, -, hiff⟩ := wellFormed_iff_of_evaluate hvalue
  have hall : (tokenize reservedCharacters text).toOption.all (fun tokens =>
      tokens.IsChain (Apart { vars }) ∧ CommasEnclosed { vars } .before [] tokens ∧
        tokens.count (.symbol .comma) = (tokens.map (furtherArguments { vars })).sum) = true := by
    decide +kernel
  rw [htokens] at hall
  exact ⟨hvalue, tokens, htokens, hiff.2 (of_decide_eq_true hall)⟩

/-- A comma outside a call, an operand directly after another, an argument that stands before the
name of the function, and an argument that is missing. -/
theorem evaluate_not_wellFormed :
    let hasValue (text : String) : Prop := ∃ v, evaluate ∅ text = .ok v
    let illFormed (text : String) : Prop :=
      ∃ tokens, tokenize reservedCharacters text = .ok tokens ∧ ¬ WellFormed {} .expression tokens
    (hasValue "1,2+" ∧ illFormed "1,2+") ∧ (hasValue "(2)(3)+" ∧ illFormed "(2)(3)+") ∧
      (hasValue "1,mod(2)" ∧ illFormed "1,mod(2)") ∧ hasValue "floor(1,)" ∧
      illFormed "floor(1,)" := by
  intro hasValue illFormed
  let number (c : Char) : Token := .number ⟨⟨[c], none⟩, none⟩
  have hcomma : ¬ Reads {} .before []
      [number '1', .symbol .comma, number '2', .symbol (.operator .add)] := by
    intro h
    cases h with
    | number _ h => cases h
  have hgroup : ¬ Reads {} .before []
      [.symbol .opening, number '2', .symbol .closing, .symbol .opening, number '3',
        .symbol .closing, .symbol (.operator .add)] := by
    intro h
    cases h with
    | group h =>
      cases h with
      | number _ h =>
        cases h with
        | closing _ h => cases h
  have hbefore : ¬ Reads {} .before []
      [number '1', .symbol .comma, .identifier "mod", .symbol .opening, number '2',
        .symbol .closing] := by
    intro h
    cases h with
    | number _ h => cases h
  have hmissing : ¬ Reads {} .before []
      [.identifier "floor", .symbol .opening, number '1', .symbol .comma, .symbol .closing] := by
    intro h
    cases h with
    | name hx _ => exact absurd hx (by decide)
    | function _ h =>
      cases h with
      | call h =>
        cases h with
        | number _ h =>
          cases h with
          | comma h => cases h
  refine ⟨⟨⟨3, ?_⟩, _, ?_, mt wellFormed_iff_reads.1 hcomma⟩,
    ⟨⟨5, ?_⟩, _, ?_, mt wellFormed_iff_reads.1 hgroup⟩,
    ⟨⟨1, ?_⟩, _, ?_, mt wellFormed_iff_reads.1 hbefore⟩,
    ⟨1, ?_⟩, _, ?_, mt wellFormed_iff_reads.1 hmissing⟩ <;> decide +kernel

end Reckoner.Grammar
