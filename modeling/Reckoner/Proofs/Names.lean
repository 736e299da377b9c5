import Reckoner.Proofs.Postfix.Items
import Reckoner.Proofs.Session.Shadowing

/-!
# Names that mean nothing

An identifier that is no variable and no constant waits as a function, and every item of the tokens
reaches the order. So an expression with a value has none that is not a function either, and a name
that is reported as unknown is one of them (`evaluate_names`).
-/

namespace Reckoner

open Postfix

/-- A name that has a meaning among these variables. -/
def IsKnown (vars : Variables) (name : String) : Prop := name ∈ vars ∨ IsBuiltin name

theorem mem_identifiers_iff {text name : String} {tokens : List Token}
    (h : tokenize reservedCharacters text = .ok tokens) :
    name ∈ identifiers text ↔ .identifier name ∈ tokens := by
  simp only [identifiers, h, List.mem_filterMap]
  constructor
  · rintro ⟨t, ht, hname⟩
    cases t with
    | identifier x =>
      cases hname
      exact ht
    | number | symbol => cases hname
  · exact fun hname => ⟨_, hname, rfl⟩

theorem isKnown_iff {vars : Variables} {name : String} :
    IsKnown vars name ↔ (Scope.value? { vars } name).isSome = true ∨
      (Registry.builtin.lookup name).isSome = true := by
  have hkeys : ∀ {α : Type} (entries : List (String × α)),
      name ∈ entries.map Prod.fst ↔ (entries.lookup name).isSome = true := by
    intro α entries
    rw [List.lookup_isSome_iff, List.mem_map]
    exact exists_congr fun entry => and_congr_right fun _ => eq_comm.trans beq_iff_eq.symm
  rw [IsKnown, IsBuiltin, Std.ExtTreeMap.mem_iff_isSome_getElem?, hkeys, hkeys, Scope.value?]
  cases vars[name]? <;> simp [or_comm]

/-- All names of an expression with a value have a meaning, and a name that is reported as unknown
is one of the expression and has none. -/
theorem evaluate_names (vars : Variables) (text : String) :
    (∀ v, evaluate vars text = .ok v → ∀ name ∈ identifiers text, IsKnown vars name) ∧
    ∀ name, evaluate vars text = .error (.unknownName name) →
      name ∈ identifiers text ∧ ¬ IsKnown vars name := by
  have hevaluate : evaluate vars text = (toPostfix vars text).bind (value .builtin) := rfl
  rw [hevaluate]
  rcases toPostfix_cases vars text with ⟨-, ht⟩ | ⟨c, -, ht⟩ | ⟨-, -, -, ht⟩ |
    ⟨hsolid, hreserved, -, items, horder, ht⟩ <;> rw [ht]
  iterate 3 exact ⟨(fun v hv => nomatch hv), fun name he => nomatch he⟩
  have htokens := tokenize_of_plain hsolid hreserved
  refine ⟨fun v hv name hname => ?_, fun name he => ?_⟩
  · have hregistered := (isComplete_of_value hv).1
    rw [isKnown_iff]
    cases hvalue : Scope.value? { vars } name with
    | some v => exact .inl rfl
    | none =>
      have hitem := (function_mem_iff horder).2 ⟨(mem_identifiers_iff htokens).1 hname, hvalue⟩
      exact .inr (hregistered _ hitem)
  · obtain ⟨hitem, hlookup⟩ := unregistered_of_value he
    obtain ⟨hname, hvalue⟩ := (function_mem_iff horder).1 hitem
    refine ⟨(mem_identifiers_iff htokens).2 hname, ?_⟩
    rw [isKnown_iff, hvalue, hlookup]
    simp

/-- A variable, a constant and functions that are called; and a name that is called inside a call. -/
theorem evaluate_names_nested :
    let vars : Variables := .insert ∅ "x" 7
    (evaluate vars "mod(x,floor(e))" = .ok (-1) ∧
      ∀ name ∈ identifiers "mod(x,floor(e))", IsKnown vars name) ∧
    (evaluate vars "mod(x,2)-floor(y(x))" = .error (.unknownName "y") ∧
      "y" ∈ identifiers "mod(x,2)-floor(y(x))" ∧ ¬ IsKnown vars "y") := by
  intro vars
  have hvalue : evaluate vars "mod(x,floor(e))" = .ok (-1) := by decide +kernel
  have herror : evaluate vars "mod(x,2)-floor(y(x))" = .error (.unknownName "y") := by
    decide +kernel
  obtain ⟨hknown, -⟩ := evaluate_names vars "mod(x,floor(e))"
  obtain ⟨-, hunknown⟩ := evaluate_names vars "mod(x,2)-floor(y(x))"
  exact ⟨⟨hvalue, hknown _ hvalue⟩, herror, hunknown _ herror⟩

end Reckoner
