import Reckoner.Proofs.Postfix.Items

/-!
# Groups in place of numbers

Tokens that have an order, put into parentheses, do in any list of tokens what a number does: they
send out their order where the number sends out itself (`ofTokens_group`). Which of several equal
numbers that is, its place tells: the order with places comes apart at the place of the number
(`ofTokensPlaced_number`).
-/

namespace Reckoner.Postfix

variable {scope : Scope}

theorem run_of_runPlaced {pending out last : List Placed} {tokens : List (Token × Nat)}
    (h : runPlaced scope pending tokens = .ok (out, last)) :
    run scope (pending.map Prod.fst) (tokens.map Prod.fst) =
      .ok (out.map Prod.fst, last.map Prod.fst) := by
  rw [← map_runPlaced, h]
  rfl

/-- A run that succeeds is a run of the first tokens and one of the others. -/
theorem runPlaced_append_ok {pending out last : List Placed} {xs ys : List (Token × Nat)}
    (h : runPlaced scope pending (xs ++ ys) = .ok (out, last)) :
    ∃ first next second, runPlaced scope pending xs = .ok (first, next) ∧
      runPlaced scope next ys = .ok (second, last) ∧ out = first ++ second := by
  induction xs generalizing pending out with
  | nil => exact ⟨[], pending, out, rfl, h, rfl⟩
  | cons t rest ih =>
    obtain ⟨now, next, later, hstep, hrest, rfl⟩ := runPlaced_cons_ok h
    obtain ⟨first, between, second, hfirst, hsecond, rfl⟩ := ih hrest
    refine ⟨now ++ first, between, second, ?_, hsecond, (List.append_assoc ..).symm⟩
    simp only [runPlaced, hstep, hfirst, bind, Except.bind, pure, Except.pure]

/-- The order around a number: what the tokens before it send out, and what those behind it send out
and leave pending. -/
theorem ofTokensPlaced_number {before after : List Token} {n : Numeral} {order : List Placed}
    (h : ofTokensPlaced scope (before ++ [.number n] ++ after) = .ok order) :
    ∃ left pending later last : List Placed,
      run scope [] before = .ok (left.map Prod.fst, pending.map Prod.fst) ∧
      run scope (pending.map Prod.fst) after = .ok (later.map Prod.fst, last.map Prod.fst) ∧
      (∀ x ∈ last.map Prod.fst, x.isParen = false) ∧
      order = left ++ (.number n.value, before.length) :: (later ++ last) := by
  obtain ⟨out, last, hrun, hparens, rfl⟩ := ofTokensPlaced_ok h
  rw [List.append_assoc, List.zipIdx_append, List.singleton_append, List.zipIdx_cons,
    Nat.zero_add] at hrun
  obtain ⟨left, pending, rest, hbefore, hrest, rfl⟩ := runPlaced_append_ok hrun
  obtain ⟨now, next, later, hnumber, hafter, rfl⟩ := runPlaced_cons_ok hrest
  cases hnumber
  have hbefore := run_of_runPlaced hbefore
  have hafter := run_of_runPlaced hafter
  rw [List.zipIdx_map_fst] at hbefore hafter
  exact ⟨left, pending, later, last, hbefore, hafter, by simpa using hparens, by simp⟩

/-- Tokens that have an order, in parentheses, and a number in their place: both lists of tokens
have no order, for one reason, or the order of the first is that of the second with the order of the
tokens in the place of the number. -/
theorem ofTokens_group {mid : List Token} {items : List Item} (h : ofTokens scope mid = .ok items)
    (before after : List Token) (n : Numeral) :
    (∃ e, ofTokens scope (before ++ (.symbol .opening :: mid ++ [.symbol .closing]) ++ after) =
          .error e ∧ ofTokens scope (before ++ [.number n] ++ after) = .error e) ∨
      ∃ left right : List Placed,
        ofTokensPlaced scope (before ++ [.number n] ++ after) =
          .ok (left ++ (.number n.value, before.length) :: right) ∧
        ofTokens scope (before ++ [.number n] ++ after) =
          .ok (left.map Prod.fst ++ .number n.value :: right.map Prod.fst) ∧
        ofTokens scope (before ++ (.symbol .opening :: mid ++ [.symbol .closing]) ++ after) =
          .ok (left.map Prod.fst ++ items ++ right.map Prod.fst) := by
  have hgroup := Block.group h
  rcases @ofTokens_replace scope scope before after _ _ _ _ hgroup (Block.number scope n)
    (fun _ => rfl) (fun _ => rfl) with ⟨e, herror, herror'⟩ | ⟨_, _, -, hnumber⟩
  · exact .inl ⟨e, herror, herror'⟩
  · obtain ⟨order, hplaced, -⟩ := exists_ofTokensPlaced hnumber
    obtain ⟨left, pending, later, last, hbefore, hafter, hparens, rfl⟩ :=
      ofTokensPlaced_number hplaced
    have hrun : run scope []
        (before ++ (.symbol .opening :: mid ++ [.symbol .closing]) ++ after) =
          .ok (left.map Prod.fst ++ (items ++ later.map Prod.fst), last.map Prod.fst) := by
      rw [List.append_assoc, run_append_of_ok hbefore, run_append_of_ok (hgroup _), hafter]
      rfl
    refine .inr ⟨left, later ++ last, hplaced, ?_, ?_⟩
    · rw [← map_ofTokensPlaced, hplaced]
      simp [Except.map]
    · exact ofTokens_eq_ok_iff.2 ⟨_, _, hrun, hparens, by simp⟩

/-- A sum that lacks an operand, in the argument of a function that is not closed before it; the
number in its place stands once more before it. -/
theorem ofTokens_group_illFormed :
    let three : Token := .number ⟨⟨['3'], none⟩, none⟩
    let n : Numeral := ⟨⟨['3'], none⟩, none⟩
    let mid : List Token := [.symbol .comma, .identifier "e", .symbol (.operator .add)]
    let items : List Item := [.number 2.718281828459045, .operator .add]
    let before : List Token := [three, .symbol (.operator .mul), .identifier "f",
      .symbol .opening, .symbol (.operator .neg)]
    let after : List Token := [.symbol (.operator .pow), .symbol .closing,
      .symbol (.operator .fact)]
    ofTokens {} mid = .ok items ∧
      ∃ left right : List Placed,
        ofTokensPlaced {} (before ++ [.number n] ++ after) =
          .ok (left ++ (.number n.value, 5) :: right) ∧
        ofTokens {} (before ++ (.symbol .opening :: mid ++ [.symbol .closing]) ++ after) =
          .ok (left.map Prod.fst ++ items ++ right.map Prod.fst) := by
  intro three n mid items before after
  have hmid : ofTokens {} mid = .ok items := by decide +kernel
  have hplaced : ofTokensPlaced {} (before ++ [.number n] ++ after) =
      .ok [(.number 3, 0), (.number 3, 5), (.operator .pow, 6), (.operator .neg, 4),
        (.function "f", 2), (.operator .fact, 8), (.operator .mul, 1)] := by decide +kernel
  rcases ofTokens_group hmid before after n with ⟨e, -, herror⟩ | ⟨left, right, horder, -, hgroup⟩
  · rw [← map_ofTokensPlaced, hplaced] at herror
    cases herror
  · exact ⟨hmid, left, right, horder, hgroup⟩

end Reckoner.Postfix
