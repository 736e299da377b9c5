import Reckoner.Proofs.Evaluate
import Reckoner.Proofs.Postfix.Block
import Reckoner.Proofs.Postfix.Stack

/-!
# Substitution

A text with a value, put into parentheses, and a fresh name bound to that value are the same to
whatever stands around them, an expression or not (`evaluate_group`). The parenthesised text is a
block of tokens (`Postfix.Block.group`), its order puts its value onto any stack
(`Postfix.foldlM_reduce_of_value`), and around both the text is cut into the same tokens
(`Token.tokensFrom_group`, `Token.tokensFrom_word`).
-/

namespace Reckoner

open Postfix

variable {vars : Variables}

theorem value?_insert_self (name : String) (v : Float) :
    Scope.value? { vars := vars.insert name v } name = some v := by
  simp [Scope.value?]

theorem value?_insert_of_ne {name other : String} (h : name ≠ other) (v : Float) :
    Scope.value? { vars := vars.insert name v } other = Scope.value? { vars } other := by
  simp [Scope.value?, Std.ExtTreeMap.getElem?_insert, h]

/-- A part of a text that does not hold a name runs the same whatever the name is bound to. -/
theorem run_insert {name : String} {before : Bool} {cs : List Char} (h : ¬ name.toList <:+: cs)
    (v : Float) (pending : List Item) :
    run { vars } pending (Token.tokensFrom before cs) =
      run { vars := vars.insert name v } pending (Token.tokensFrom before cs) := by
  refine run_congr (fun other ho => (value?_insert_of_ne ?_ v).symm) pending
  rintro rfl
  exact h (Token.infix_of_identifier_mem ho)

/-- The statement of `evaluate_group` for tokens. -/
theorem evaluateTokens_group {inner : List Token} {left right : List Char} {before after : Bool}
    {name : String} {v : Float} (hv : evaluateTokens vars inner = .ok v)
    (hleft : ¬ name.toList <:+: left) (hright : ¬ name.toList <:+: right) :
    evaluateTokens vars (Token.tokensFrom before left ++
        (.symbol .opening :: inner ++ [.symbol .closing]) ++ Token.tokensFrom after right) =
      evaluateTokens (vars.insert name v)
        (Token.tokensFrom before left ++ [.identifier name] ++ Token.tokensFrom after right) := by
  obtain ⟨items, ho, hv⟩ := evaluateTokens_eq_ok_iff.1 hv
  have hput : ∀ stack, items.foldlM (reduce .builtin) stack =
      [Item.number v].foldlM (reduce .builtin) stack := foldlM_reduce_of_value hv
  unfold evaluateTokens
  rcases ofTokens_replace (Block.group ho) (Block.name (value?_insert_self name v))
    (run_insert hleft v) (run_insert hright v) with ⟨e, h₁, h₂⟩ | ⟨first, last, h₁, h₂⟩
  · rw [h₁, h₂]
  · rw [h₁, h₂]
    exact value_replace hput first last

/-- A text in parentheses does what a fresh name for its value does, in every context without
blanks that meets it at symbols. -/
theorem evaluate_group {s before after name : String} {v : Float} (hs : evaluate vars s = .ok v)
    (hbefore : ∀ c ∈ before.toList, Text.isBlank c = false)
    (hafter : ∀ c ∈ after.toList, Text.isBlank c = false)
    (hend : ∀ c ∈ before.toList.getLast?, isSymbol c = true)
    (hstart : ∀ c ∈ after.toList.head?, isSymbol c = true)
    (hname : IsWord name) (hdigit : ∀ c ∈ name.toList.head?, c.isDigit = false)
    (hfresh : ¬ name.toList <:+: before.toList) (hfresh' : ¬ name.toList <:+: after.toList) :
    evaluate vars (before ++ "(" ++ s ++ ")" ++ after) =
      evaluate (vars.insert name v) (before ++ name ++ after) := by
  obtain ⟨-, hres, hv⟩ := evaluate_eq_ok_iff.1 hs
  have hgroup : solid (before ++ "(" ++ s ++ ")" ++ after) =
      before.toList ++ '(' :: (solid s ++ ')' :: after.toList) := by
    simp only [solid_append, solid_eq_toList hbefore, solid_eq_toList hafter,
      show solid "(" = ['('] by decide, show solid ")" = [')'] by decide, List.append_assoc,
      List.cons_append, List.nil_append]
  have hword : solid (before ++ name ++ after) =
      before.toList ++ name.toList ++ after.toList := by
    simp only [solid_append, solid_eq_toList hbefore, solid_eq_toList hafter,
      solid_eq_toList hname.noBlank]
  rw [evaluate_of_solid vars (by simp [hgroup]),
    evaluate_of_solid _ (by simp [hword, hname.toList_ne_nil]), hgroup, hword,
    Token.tokensFrom_group, Token.tokensFrom_word hname hdigit hend hstart,
    evaluateTokens_group hv hfresh hfresh']
  -- a reserved character can only stand in the context, which is the same
  have hs' : (solid s).find? reservedCharacters.contains = none :=
    List.find?_eq_none.2 fun c hc => by simpa using hres c hc
  have hn' : name.toList.find? reservedCharacters.contains = none :=
    List.find?_eq_none.2 fun c hc => by simpa using hname.noReserved c hc
  simp only [List.find?_append, List.find?_cons, hs', hn', Option.none_or, Option.or_none,
    show reservedCharacters.contains '(' = false by decide,
    show reservedCharacters.contains ')' = false by decide]

/-- A sum under a sign and a factorial, in a context that closes a parenthesis it never opened. -/
theorem evaluate_group_open :
    evaluate ∅ "2 + 3" = .ok 5 ∧ IsWord "x" ∧ ¬ "x".toList <:+: "4),-".toList ∧
      evaluate ∅ ("4),-" ++ "(" ++ "2 + 3" ++ ")" ++ "!*") =
        evaluate (Std.ExtTreeMap.insert ∅ "x" 5) ("4),-" ++ "x" ++ "!*") := by
  have hs : evaluate ∅ "2 + 3" = .ok 5 := by decide +kernel
  have hfresh : ¬ "x".toList <:+: "4),-".toList := by decide
  refine ⟨hs, by decide, hfresh, ?_⟩
  exact evaluate_group hs (by simp [Text.isBlank]) (by simp [Text.isBlank])
    (by simp [isSymbol, Symbol.ofChar?]) (by simp [isSymbol, Symbol.ofChar?]) (by decide)
    (by simp) hfresh (by decide)

end Reckoner
