import Reckoner.Proofs.Postfix.Places
import Reckoner.Proofs.Refusal
import Reckoner.Proofs.Token.Literal

/-!
# A postfix text stands for one sequence

The items of an order are shown as words with a space between them. Each word tells what item it is
(`Postfix.Item.text_inj`): an identifier is neither a numeral nor an operator, since what the
scanner calls an identifier spells no numeral, and has no symbol inside but the sign of an exponent
(`IsIdentifier`). No word is empty or has a blank, so the words are found again, and two expressions
with the same postfix text have the same order and the same value (`postfixText_inj`).

Infinities are left out: `inf` is an identifier too.
-/

namespace Reckoner

/-! ## Identifiers -/

/-- A name as the scanner may find it. -/
structure IsIdentifier (name : String) : Prop where
  nonempty : name.toList ≠ []
  noBlank : Text.HasNoBlank name
  noNumeral : ¬ IsNumeral name.toList
  /-- A symbol inside stands after a mantissa and its mark. -/
  inside : ∀ before c after, name.toList = before ++ c :: after → isSymbol c = true →
    IsOpenNumeral before

theorem isIdentifier_of_mem {reserved : List Char} {text name : String} {tokens : List Token}
    (h : tokenize reserved text = .ok tokens) (hname : .identifier name ∈ tokens) :
    IsIdentifier name := by
  rw [tokenize_eq_ok h] at hname
  have hscan := Token.mem_of_mem_dropIdlePlus (Token.mem_of_mem_classifySigns (by simp) hname)
  obtain ⟨before, after, hsplit⟩ := List.append_of_mem hscan
  have hfits := (Token.cut_scan (solid text)).isSegmentation.atom (.identifier name) after
    ⟨before, hsplit.symm⟩ rfl
  refine ⟨hfits.nonempty, fun c hc => ?_, hfits.identifier name rfl, fun before c after hname hc =>
    (hfits.inside before c after hname hc).2.1⟩
  exact Text.isBlank_of_mem_removeBlanks ((Token.infix_of_identifier_mem hname).subset hc)

/-- A mantissa and its mark are two characters and more. -/
theorem IsOpenNumeral.one_lt_length {cs : List Char} (h : IsOpenNumeral cs) : 1 < cs.length := by
  obtain ⟨m, mark, hm, -, rfl⟩ := h
  have hne : m.toChars ≠ [] := by
    intro hnil
    obtain ⟨whole, fraction⟩ := m
    cases fraction <;> simp_all [Mantissa.toChars]
    exact absurd hm.nonempty (by simp)
  simpa using List.length_pos_of_ne_nil hne

/-- The first two characters of an identifier are no symbols. -/
theorem IsIdentifier.isSymbol_eq_false {name : String} (h : IsIdentifier name)
    {before after : List Char} {c : Char} (hname : name.toList = before ++ c :: after)
    (hlength : before.length ≤ 1) : isSymbol c = false := by
  by_contra hc
  have := (h.inside before c after hname (by simpa using hc)).one_lt_length
  omega

namespace Postfix

/-! ## Words -/

namespace Item

/-- An item of an order, with a finite value if it is a number. -/
def IsLegible : Item → Prop
  | number x => x.isFinite = true
  | operator _ => True
  | function name => IsIdentifier name
  | paren => False

/-- The word of a number is a numeral, after a minus or not. -/
theorem exists_text_number {x : Float} (h : x.isFinite = true) : ∃ (negative : Bool) (n : Numeral),
    n.IsProper ∧ (text (.number x)).toList = (if negative then ['-'] else []) ++ n.toChars := by
  obtain ⟨negative, quanta, hparts⟩ := Double.isFinite_iff.1 h
  obtain ⟨n, hn, htext, -⟩ := Double.exists_text_eq Decimal.marks_exact hparts
  refine ⟨negative, n, hn, ?_⟩
  change (Decimal.Layout.exact.text x).toList = _
  rw [htext, String.toList_append, Numeral.text, String.toList_ofList]
  cases negative <;> rfl

theorem text_number_ne_operator {x : Float} (h : x.isFinite = true) (op : Operator) :
    text (.number x) ≠ text (.operator op) := by
  intro heq
  have hread := Double.read?_exactText (Double.isNaN_of_isFinite h)
  have hnone : Double.read? op.text = none := by cases op <;> decide +kernel
  change Double.read? (text (.number x)) = _ at hread
  rw [heq, text, hnone] at hread
  cases hread

theorem text_number_ne_function {x : Float} (h : x.isFinite = true) {name : String}
    (hname : IsIdentifier name) : text (.number x) ≠ text (.function name) := by
  intro heq
  obtain ⟨negative, n, hn, htext⟩ := exists_text_number h
  rw [heq, text] at htext
  cases negative with
  | false => exact hname.noNumeral ⟨n, hn, htext.symm⟩
  | true =>
    have hminus : name.toList = [] ++ '-' :: n.toChars := htext
    exact absurd (hname.isSymbol_eq_false hminus (by simp)) (by decide)

theorem text_operator_ne_function (op : Operator) {name : String} (hname : IsIdentifier name) :
    text (.operator op) ≠ text (.function name) := by
  intro heq
  have hsymbol : ∃ before c after, op.text.toList = before ++ c :: after ∧ before.length ≤ 1 ∧
      isSymbol c = true := by
    cases op
    case pos => exact ⟨['u'], '+', [], rfl, by decide, rfl⟩
    case neg => exact ⟨['u'], '-', [], rfl, by decide, rfl⟩
    all_goals exact ⟨[], _, [], rfl, by decide, rfl⟩
  obtain ⟨before, c, after, hop, hlength, hc⟩ := hsymbol
  change op.text = name at heq
  rw [heq] at hop
  simp [hname.isSymbol_eq_false hop hlength] at hc

/-- An item is known by its word. -/
theorem text_inj {x y : Item} (hx : x.IsLegible) (hy : y.IsLegible) (h : x.text = y.text) :
    x = y := by
  -- items of different kinds have different words, and each kind is read back from its own
  cases x with
  | number v =>
    cases y with
    | number w =>
      have hv := Double.read?_exactText (Double.isNaN_of_isFinite hx)
      have hw := Double.read?_exactText (Double.isNaN_of_isFinite hy)
      change Double.exactText v = Double.exactText w at h
      rw [h, hw] at hv
      rw [Option.some.inj hv]
    | operator op => exact absurd h (text_number_ne_operator hx op)
    | function name => exact absurd h (text_number_ne_function hx hy)
    | paren => exact hy.elim
  | operator op =>
    cases y with
    | number w => exact absurd h.symm (text_number_ne_operator hy op)
    | operator other =>
      have hinj : ∀ op ∈ Operator.all, ∀ other ∈ Operator.all, op.text = other.text →
          op = other := by
        decide
      rw [hinj op (by cases op <;> decide) other (by cases other <;> decide) h]
    | function name => exact absurd h (text_operator_ne_function op hy)
    | paren => exact hy.elim
  | function name =>
    cases y with
    | number w => exact absurd h.symm (text_number_ne_function hy hx)
    | operator op => exact absurd h.symm (text_operator_ne_function op hx)
    | function other => exact congrArg function h
    | paren => exact hy.elim
  | paren => exact hx.elim

theorem text_ne_nil {x : Item} (h : x.IsLegible) : x.text.toList ≠ [] := by
  cases x with
  | number v =>
    obtain ⟨negative, n, hn, htext⟩ := exists_text_number h
    obtain ⟨c, cs, hcs, -⟩ := Double.isSign_head_toChars hn
    rw [htext, hcs]
    simp
  | operator op => cases op <;> decide
  | function name => exact IsIdentifier.nonempty h
  | paren => exact h.elim

theorem space_not_mem_text {x : Item} (h : x.IsLegible) : ' ' ∉ x.text.toList := by
  have hblank : Text.HasNoBlank x.text := by
    cases x with
    | number v =>
      refine Decimal.hasNoBlank_text ?_ v
      simp [Text.HasNoBlank, Decimal.Layout.exact, Text.isBlank]
    | operator op => cases op <;> simp [Text.HasNoBlank, text, Operator.text, Text.isBlank]
    | function name => exact IsIdentifier.noBlank h
    | paren => exact h.elim
  exact fun hspace => absurd (hblank _ hspace) (by decide)

end Item

/-! ## Sequences -/

/-- Words between spaces are found again. -/
theorem intercalate_inj {words others : List (List Char)}
    (hwords : ∀ word ∈ words, word ≠ [] ∧ ' ' ∉ word)
    (hothers : ∀ word ∈ others, word ≠ [] ∧ ' ' ∉ word)
    (h : [' '].intercalate words = [' '].intercalate others) : words = others := by
  have hnil : ∀ {words : List (List Char)}, (∀ word ∈ words, word ≠ [] ∧ ' ' ∉ word) →
      [' '].intercalate words = [] → words = [] := by
    intro words hwords hempty
    match words with
    | [] => rfl
    | [word] => exact absurd (by simpa using hempty) (hwords word (by simp)).1
    | word :: other :: rest => simp [List.intercalate_cons_cons] at hempty
  rcases eq_or_ne words [] with rfl | hne
  · exact (hnil hothers (by rw [← h]; rfl)).symm
  · have hne' : others ≠ [] := by
      rintro rfl
      exact hne (hnil hwords (by rw [h]; rfl))
    rw [← List.splitOn_intercalate ' ' (fun word hword => (hwords word hword).2) hne, h,
      List.splitOn_intercalate ' ' (fun word hword => (hothers word hword).2) hne']

variable {items items' : List Item}

theorem map_text_inj (h : ∀ x ∈ items, x.IsLegible) (h' : ∀ x ∈ items', x.IsLegible)
    (heq : items.map Item.text = items'.map Item.text) : items = items' := by
  induction items generalizing items' with
  | nil => exact (List.map_eq_nil_iff.1 heq.symm).symm
  | cons x xs ih =>
    obtain ⟨y, ys, rfl, hxy, hrest⟩ := List.map_eq_cons_iff.1 heq.symm
    obtain ⟨hx, hxs⟩ := List.forall_mem_cons.1 h
    obtain ⟨hy, hys⟩ := List.forall_mem_cons.1 h'
    rw [Item.text_inj hx hy hxy.symm, ih hxs hys hrest.symm]

theorem render_inj (h : ∀ x ∈ items, x.IsLegible) (h' : ∀ x ∈ items', x.IsLegible)
    (heq : render items = render items') : items = items' := by
  have hchars := congrArg String.toList heq
  simp only [render, String.toList_intercalate, List.map_map] at hchars
  have hwords : ∀ {items : List Item}, (∀ x ∈ items, x.IsLegible) →
      ∀ word ∈ items.map (String.toList ∘ Item.text), word ≠ [] ∧ ' ' ∉ word := by
    intro items h word hword
    obtain ⟨x, hx, rfl⟩ := List.mem_map.1 hword
    exact ⟨Item.text_ne_nil (h x hx), Item.space_not_mem_text (h x hx)⟩
  have hmap := intercalate_inj (hwords h) (hwords h') hchars
  rw [← List.map_map, ← List.map_map] at hmap
  exact map_text_inj h h' ((List.map_inj_right fun _ _ => String.toList_injective).1 hmap)

end Postfix

open Postfix

theorem isLegible_of_toPostfix {vars : Variables} {text : String} {items : List Item}
    (h : toPostfix vars text = .ok items) (hfinite : ∀ x, .number x ∈ items → x.isFinite = true) :
    ∀ x ∈ items, x.IsLegible := by
  intro item hitem
  rw [toPostfix] at h
  cases htokens : tokenize reservedCharacters text with
  | error e => simp [htokens, bind, Except.bind] at h
  | ok tokens =>
    replace h : ofTokens { vars } tokens = .ok items := by
      simpa [htokens, bind, Except.bind] using h
    cases item with
    | number x => exact hfinite x hitem
    | operator op => trivial
    | function name => exact isIdentifier_of_mem htokens (function_of_ofTokens h hitem)
    | paren =>
      obtain ⟨t, -, ht⟩ := List.mem_flatMap.1 ((perm_ofTokens h).mem_iff.1 hitem)
      exact absurd (isParen_of_mem_itemsOf ht) (by simp [Item.isParen])

/-- Two expressions whose orders have finite numbers only and are shown by one text have one order,
and so one value or one error. -/
theorem postfixText_inj {vars vars' : Variables} {text text' : String} {items items' : List Item}
    (h : toPostfix vars text = .ok items) (h' : toPostfix vars' text' = .ok items')
    (hfinite : ∀ x, .number x ∈ items → x.isFinite = true)
    (hfinite' : ∀ x, .number x ∈ items' → x.isFinite = true)
    (hshown : postfixText vars text = postfixText vars' text') :
    items = items' ∧ evaluate vars text = evaluate vars' text' := by
  have hrender : render items = render items' := by
    simpa [postfixText, h, h', Except.map] using hshown
  obtain rfl := render_inj (isLegible_of_toPostfix h hfinite) (isLegible_of_toPostfix h' hfinite')
    hrender
  refine ⟨rfl, ?_⟩
  have hevaluate : ∀ vars text,
      evaluate vars text = (toPostfix vars text).bind (value .builtin) := fun _ _ => rfl
  rw [hevaluate, hevaluate, h, h']

/-- A number that a variable holds, and one that is written out in another way than it is shown. -/
theorem postfixText_inj_variable :
    let vars : Variables := .insert ∅ "x" 1e-5
    postfixText vars "f(2)^-x" = .ok "2.0 f 1e-05 u- ^" ∧
      postfixText ∅ "f(2.)^-.00001" = .ok "2.0 f 1e-05 u- ^" ∧
      toPostfix vars "f(2)^-x" = toPostfix ∅ "f(2.)^-.00001" ∧
      evaluate vars "f(2)^-x" = evaluate ∅ "f(2.)^-.00001" := by
  intro vars
  let items : List Item := [.number 2, .function "f", .number 1e-5, .operator .neg, .operator .pow]
  have h : toPostfix vars "f(2)^-x" = .ok items := by decide +kernel
  have h' : toPostfix ∅ "f(2.)^-.00001" = .ok items := by decide +kernel
  have hrender : render items = "2.0 f 1e-05 u- ^" := by decide +kernel
  have hshown : postfixText vars "f(2)^-x" = .ok "2.0 f 1e-05 u- ^" := by
    rw [postfixText, h, ← hrender]
    rfl
  have hshown' : postfixText ∅ "f(2.)^-.00001" = .ok "2.0 f 1e-05 u- ^" := by
    rw [postfixText, h', ← hrender]
    rfl
  have hfinite : ∀ x, .number x ∈ items → x.isFinite = true := by
    simp only [items, List.mem_cons, Item.number.injEq, reduceCtorEq, false_or, or_false,
      List.not_mem_nil, forall_eq_or_imp, forall_eq]
    decide +kernel
  obtain ⟨-, hvalue⟩ := postfixText_inj h h' hfinite hfinite (hshown.trans hshown'.symm)
  exact ⟨hshown, hshown', h.trans h'.symm, hvalue⟩

end Reckoner
