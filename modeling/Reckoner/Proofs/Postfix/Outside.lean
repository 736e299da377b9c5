import Reckoner.Proofs.Postfix.Block

/-!
# Outside parentheses

`outside` lists the operators and functions of tokens that stand in no parentheses. After a run they
are what can be pending below the open parentheses, and one that is not pending any more has been
sent out by one that outlasts it (`run_layered`). Where no parenthesis is open this is all that is
pending (`remains_of_run`).
-/

namespace Reckoner.Postfix

variable {scope : Scope}

/-! ## Items that go out together -/

/-- Every operator that sends out `p` would send out `x`. -/
def Outlasts (p x : Item) : Prop := ∀ op, goesBefore op p = true → goesBefore op x = true

theorem Outlasts.refl (x : Item) : Outlasts x x := fun _ h => h

theorem Outlasts.trans {p q x : Item} (hp : Outlasts p q) (hq : Outlasts q x) : Outlasts p x :=
  fun op h => hq op (hp op h)

/-- An operator outlasts what it sends out. -/
theorem outlasts_of_goesBefore {op : Operator} {x : Item} (h : goesBefore op x = true) :
    Outlasts (.operator op) x := by
  intro op' h'
  cases x with
  | function name => rfl
  | number | paren => cases h
  | operator top =>
    simp only [goesBefore, Bool.or_eq_true, decide_eq_true_eq, Bool.and_eq_true,
      beq_iff_eq] at h h' ⊢
    rcases h' with h' | ⟨h', hassoc⟩
    · exact .inl (by omega)
    · rcases h with h | ⟨h, -⟩
      · exact .inl (by omega)
      · exact .inr ⟨by omega, hassoc⟩

/-- What is left of items when others are added: no new ones, and none is gone that nothing
outlasts. -/
structure Remains (added before after : List Item) : Prop where
  mem : ∀ x ∈ after, x ∈ added ∨ x ∈ before
  outlasted : ∀ x, x ∈ added ∨ x ∈ before → ∃ p ∈ after, Outlasts p x

theorem Remains.refl (items : List Item) : Remains [] items items where
  mem _ hx := .inr hx
  outlasted x hx := ⟨x, hx.resolve_left List.not_mem_nil, .refl x⟩

theorem Remains.trans {xs ys before between after : List Item} (h : Remains xs before between)
    (h' : Remains ys between after) : Remains (xs ++ ys) before after where
  mem x hx := by
    rw [List.mem_append]
    rcases h'.mem x hx with hx | hx
    · exact .inl (.inr hx)
    · exact (h.mem x hx).imp_left .inl
  outlasted x hx := by
    rw [List.mem_append] at hx
    rcases hx with (hx | hx) | hx
    · obtain ⟨q, hq, hqx⟩ := h.outlasted x (.inl hx)
      obtain ⟨p, hp, hpq⟩ := h'.outlasted q (.inr hq)
      exact ⟨p, hp, hpq.trans hqx⟩
    · exact h'.outlasted x (.inl hx)
    · obtain ⟨q, hq, hqx⟩ := h.outlasted x (.inr hx)
      obtain ⟨p, hp, hpq⟩ := h'.outlasted q (.inr hq)
      exact ⟨p, hp, hpq.trans hqx⟩

theorem Remains.cons (x : Item) (items : List Item) : Remains [x] items (x :: items) where
  mem _ hy := (List.mem_cons.1 hy).imp_left List.mem_singleton.2
  outlasted y hy := ⟨y, List.mem_cons.2 (hy.imp_left List.mem_singleton.1), .refl y⟩

theorem Remains.operator (op : Operator) (items : List Item) :
    Remains [.operator op] items (.operator op :: items.dropWhile (goesBefore op)) where
  mem x hx := by
    rcases List.mem_cons.1 hx with rfl | hx
    · exact .inl List.mem_cons_self
    · exact .inr (List.dropWhile_subset _ hx)
  outlasted x hx := by
    rcases hx with hx | hx
    · exact ⟨x, List.mem_cons.2 (.inl (List.mem_singleton.1 hx)), .refl x⟩
    · rw [← List.takeWhile_append_dropWhile (p := goesBefore op) (l := items)] at hx
      rcases List.mem_append.1 hx with hx | hx
      · exact ⟨_, List.mem_cons_self, outlasts_of_goesBefore (List.mem_takeWhile_imp hx)⟩
      · exact ⟨x, List.mem_cons_of_mem _ hx, .refl x⟩

/-! ## Layers -/

/-- The number of open parentheses after a token. -/
def nesting (depth : Nat) : Token → Nat
  | .symbol .opening => depth + 1
  | .symbol .closing => depth - 1
  | _ => depth

/-- What a token leaves pending outside parentheses. -/
def outer (scope : Scope) (depth : Nat) : Token → List Item
  | .symbol (.operator op) => if depth = 0 then [.operator op] else []
  | .identifier name => if depth = 0 ∧ scope.value? name = none then [.function name] else []
  | _ => []

def outside (scope : Scope) (depth : Nat) : List Token → List Item
  | [] => []
  | t :: rest => outer scope depth t ++ outside scope (nesting depth t) rest

theorem outer_succ (scope : Scope) (depth : Nat) (t : Token) : outer scope (depth + 1) t = [] := by
  unfold outer
  split <;> simp

/-- Pending items with `depth` open parentheses, and the items below all of them. -/
inductive Layered : (depth : Nat) → (bottom pending : List Item) → Prop
  | bottom {bottom : List Item} (h : ∀ x ∈ bottom, x.isParen = false) : Layered 0 bottom bottom
  | paren {depth : Nat} {bottom pending above : List Item} (h : ∀ x ∈ above, x.isParen = false)
      (below : Layered depth bottom pending) :
      Layered (depth + 1) bottom (above ++ .paren :: pending)

/-- A token other than a parenthesis opens none. -/
theorem step_flat {pending : List Item} {t : Token} (h : ∀ x ∈ pending, x.isParen = false)
    (hopen : t ≠ .symbol .opening) (hclose : t ≠ .symbol .closing) :
    ∃ now next, step scope pending t = .ok (now, next) ∧ (∀ x ∈ next, x.isParen = false) ∧
      Remains (outer scope 0 t) pending next := by
  cases t with
  | number n => exact ⟨_, _, rfl, h, .refl pending⟩
  | identifier name =>
    cases hv : scope.value? name with
    | some v =>
      have houter : outer scope 0 (.identifier name) = [] := by simp [outer, hv]
      exact ⟨[.number v], pending, by simp only [step, hv], h, houter ▸ .refl pending⟩
    | none =>
      have houter : outer scope 0 (.identifier name) = [.function name] := by simp [outer, hv]
      exact ⟨[], .function name :: pending, by simp only [step, hv],
        List.forall_mem_cons.2 ⟨rfl, h⟩, houter ▸ .cons _ pending⟩
  | symbol s =>
    cases s with
    | opening => exact absurd rfl hopen
    | closing => exact absurd rfl hclose
    | comma => exact ⟨_, _, rfl, h, .refl pending⟩
    | operator op =>
      refine ⟨_, _, rfl, List.forall_mem_cons.2 ⟨rfl, fun x hx => ?_⟩, .operator op pending⟩
      exact h x (List.dropWhile_subset _ hx)

theorem step_layered {depth : Nat} {bottom pending now next : List Item} {t : Token}
    (hp : Layered depth bottom pending) (h : step scope pending t = .ok (now, next)) :
    ∃ bottom', Layered (nesting depth t) bottom' next ∧
      Remains (outer scope depth t) bottom bottom' := by
  by_cases hopen : t = .symbol .opening
  · subst hopen
    cases h
    exact ⟨bottom, @Layered.paren _ _ _ [] (by simp) hp, .refl bottom⟩
  by_cases hclose : t = .symbol .closing
  · subst hclose
    cases hp with
    | bottom hb =>
      have hnone : bottom.dropWhile (!·.isParen) = [] :=
        List.dropWhile_eq_nil_iff.2 fun x hx => by simp [hb x hx]
      rw [step, hnone] at h
      cases h
    | paren ha below =>
      rw [step_closing ha] at h
      cases h
      exact ⟨bottom, below, .refl bottom⟩
  have hdepth : nesting depth t = depth := by
    unfold nesting
    split <;> first | rfl | contradiction
  rw [hdepth]
  -- any other token acts on what is above the last open parenthesis
  cases hp with
  | bottom hb =>
    obtain ⟨now', next', hs, hflat, hnext⟩ := step_flat hb hopen hclose
    rw [h] at hs
    cases hs
    exact ⟨next, .bottom hflat, hnext⟩
  | paren ha below =>
    obtain ⟨now', next', hs, hflat, -⟩ := step_flat ha hopen hclose
    rw [step_frame _ hs] at h
    cases h
    exact ⟨bottom, .paren hflat below, outer_succ scope _ t ▸ .refl bottom⟩

theorem run_layered {depth : Nat} {bottom pending out last : List Item} {tokens : List Token}
    (hp : Layered depth bottom pending) (h : run scope pending tokens = .ok (out, last)) :
    ∃ depth' bottom', Layered depth' bottom' last ∧
      Remains (outside scope depth tokens) bottom bottom' := by
  induction tokens generalizing depth bottom pending out with
  | nil =>
    cases h
    exact ⟨depth, bottom, hp, .refl bottom⟩
  | cons t rest ih =>
    obtain ⟨now, next, later, hs, hr, rfl⟩ := run_cons_ok h
    obtain ⟨between, hbetween, hfirst⟩ := step_layered hp hs
    obtain ⟨depth', bottom', hlast, hrest⟩ := ih hbetween hr
    exact ⟨depth', bottom', hlast, hfirst.trans hrest⟩

/-- Where no parenthesis is open, what is pending is what remains of the items outside
parentheses. -/
theorem remains_of_run {out last : List Item} {tokens : List Token}
    (h : run scope [] tokens = .ok (out, last)) (hlast : ∀ x ∈ last, x.isParen = false) :
    Remains (outside scope 0 tokens) [] last := by
  have hnil : Layered 0 [] [] := .bottom (by simp)
  obtain ⟨depth, bottom, hlayers, hremains⟩ := run_layered hnil h
  cases hlayers with
  | bottom _ => exact hremains
  | paren _ _ => cases hlast .paren (by simp)

end Reckoner.Postfix
