import Mathlib.Tactic
import Reckoner.Proofs.Storage.Columns
import Reckoner.Proofs.Storage.State

/-!
# Loading by column

A history and variables are read from a text in the same way (`readBy`): the rows are looked up in
the columns asked for, so it does not matter which other columns there are and where the columns
stand (`Table.Widens.readBy_eq`). Where one is missing, the rows are not looked at
(`readBy_of_missing`).

What the rows stand for is said in terms of their fields (`Table.IsEntry`, `Table.IsVariable`,
`Table.Gives`), and what is loaded is exactly that (`loads_by_column`).
-/

namespace Reckoner.Storage

/-! ## Rows one by one -/

section
variable {α β γ ε : Type}

theorem mapM_eq_mapM {f : α → Except ε γ} {g : β → Except ε γ} {xs : List α} {ys : List β}
    (h : List.Forall₂ (fun x y => f x = g y) xs ys) : xs.mapM f = ys.mapM g := by
  induction h with
  | nil => rfl
  | cons hx _ ih => rw [List.mapM_cons, List.mapM_cons, hx, ih]

theorem forall₂_congr_of_mem {R S : α → β → Prop} {xs : List α} {ys : List β}
    (h : ∀ x ∈ xs, ∀ y, R x y ↔ S x y) : List.Forall₂ R xs ys ↔ List.Forall₂ S xs ys := by
  have himp : ∀ {R S : α → β → Prop}, (∀ x ∈ xs, ∀ y, R x y → S x y) →
      List.Forall₂ R xs ys → List.Forall₂ S xs ys := fun himp hxs =>
    ((List.forall₂_and_left _ _).2 ⟨himp, hxs⟩).imp fun _ y h => h.1 y h.2
  exact ⟨himp fun x hx y => (h x hx y).1, himp fun x hx y => (h x hx y).2⟩

theorem exists_forall₂ {R : α → β → Prop} {xs : List α} (h : ∀ x ∈ xs, ∃ y, R x y) :
    ∃ ys, List.Forall₂ R xs ys := by
  induction xs with
  | nil => exact ⟨[], .nil⟩
  | cons x xs ih =>
    obtain ⟨⟨y, hy⟩, hxs⟩ := List.forall_mem_cons.1 h
    obtain ⟨ys, hys⟩ := ih hxs
    exact ⟨y :: ys, .cons hy hys⟩

/-- Where one list is split, the other can be split too. -/
theorem exists_split_of_forall₂ {R : α → β → Prop} {above below : List α} {x : α} {ys : List β}
    (h : List.Forall₂ R (above ++ x :: below) ys) : ∃ above' y below', ys = above' ++ y :: below' ∧
      R x y ∧ List.Forall₂ R below below' := by
  induction above generalizing ys with
  | nil =>
    obtain ⟨y, below', hxy, hbelow, rfl⟩ := List.forall₂_cons_left_iff.1 h
    exact ⟨[], y, below', rfl, hxy, hbelow⟩
  | cons first above ih =>
    obtain ⟨first', rest, -, hrest, rfl⟩ := List.forall₂_cons_left_iff.1 h
    obtain ⟨above', y, below', rfl, hxy, hbelow⟩ := ih hrest
    exact ⟨first' :: above', y, below', rfl, hxy, hbelow⟩

theorem exists_of_forall₂ {R : α → β → Prop} {xs : List α} {ys : List β}
    (h : List.Forall₂ R xs ys) {x : α} (hx : x ∈ xs) : ∃ y ∈ ys, R x y := by
  obtain ⟨above, below, rfl⟩ := List.append_of_mem hx
  obtain ⟨above', y, below', rfl, hxy, -⟩ := exists_split_of_forall₂ h
  exact ⟨y, by simp, hxy⟩

end

/-! ## Reading by column -/

/-- What the rows of a text are read as, by their fields in the columns asked for. -/
def readBy {α : Type} (columns : List String) (lacking : List String → LoadError)
    (ofRow : List String → Except LoadError α) (text : String) : Except LoadError (List α) := do
  let table ← (Table.read? text).elim (.error .noColumns) .ok
  match table.missing columns with
  | [] => table.rows.mapM fun row => ofRow (columns.map (table.cell row))
  | missing => .error (lacking missing)

theorem readHistory_eq (path : Path) (text : String) : readHistory path (some text) =
    readBy historyColumns (.missingHistoryColumns path) entryOfRow text := rfl

theorem readVariables_eq (path : Path) (text : String) : readVariables path (some text) =
    readBy variableColumns (.missingVariableColumns path) variableOfRow text := rfl

section
variable {α : Type} {columns : List String} {lacking : List String → LoadError}
  {ofRow : List String → Except LoadError α} {t t' : Table} {text text' : String}

theorem readBy_of_subset (h : t.IsText text) (hcolumns : columns.Nodup)
    (hlen : 2 ≤ columns.length) (hsub : columns ⊆ t.header) :
    readBy columns lacking ofRow text =
      t.rows.mapM fun row => ofRow (columns.map (t.cell row)) := by
  obtain ⟨rows, hread, hrows⟩ := h.exists_read?
  obtain rfl := hrows (hlen.trans (hcolumns.subperm hsub).length_le)
  have hmissing : t.missing columns = [] := Table.missing_eq_nil_iff.2 hsub
  simp only [readBy, hread, Option.elim_some, bind, Except.bind, hmissing]

theorem readBy_of_missing (h : t.IsText text) (hmissing : t.missing columns ≠ []) :
    readBy columns lacking ofRow text = .error (lacking (t.missing columns)) := by
  obtain ⟨rows, hread, -⟩ := h.exists_read?
  have heq : (⟨t.header, rows⟩ : Table).missing columns = t.missing columns := rfl
  simp only [readBy, hread, Option.elim_some, bind, Except.bind, heq]

/-- Only the fields in the columns asked for count. -/
theorem Table.Widens.readBy_eq (h : t.Widens columns t') (ht : t.IsText text)
    (ht' : t'.IsText text') (hcolumns : columns.Nodup) (hlen : 2 ≤ columns.length) :
    readBy columns lacking ofRow text' = readBy columns lacking ofRow text := by
  by_cases hsub : columns ⊆ t.header
  · rw [readBy_of_subset ht hcolumns hlen hsub,
      readBy_of_subset ht' hcolumns hlen (List.Subset.trans hsub h.header)]
    refine (mapM_eq_mapM ?_).symm
    exact (h.cells ht.regular ht'.regular hsub).imp fun row row' hcells =>
      congrArg ofRow (List.map_congr_left hcells)
  · have hmissing : t.missing columns ≠ [] := fun hnil => hsub (Table.missing_eq_nil_iff.1 hnil)
    rw [readBy_of_missing ht hmissing, readBy_of_missing ht' (h.missing_eq ▸ hmissing),
      h.missing_eq]

end

theorem entryOfRow_eq_ok_iff {id expression result : String} {entry : Entry} :
    entryOfRow [id, expression, result] = .ok entry ↔ Text.readInt id.toList = .ok entry.id ∧
      expression = entry.expression ∧ result = entry.result := by
  obtain ⟨n, x, y⟩ := entry
  cases hread : Text.readInt id.toList <;> simp [entryOfRow, hread]

theorem variableOfRow_eq_ok_iff {name field : String} {entry : String × Float} :
    variableOfRow [name, field] = .ok entry ↔
      name = entry.1 ∧ readValue? field = some entry.2 := by
  obtain ⟨other, x⟩ := entry
  cases hread : readValue? field <;> simp [variableOfRow, hread]

/-! ## What is loaded -/

theorem readValue?_eq_some_iff {field : String} {x : Float} : readValue? field = some x ↔
    (field = "" → x = Double.nan) ∧ (field ≠ "" → Double.read? field = some x) := by
  unfold readValue?
  split
  · rename_i hempty
    simp [hempty, eq_comm]
  · rename_i hfield
    simp [hfield]

namespace Table

/-- The row of an entry. Its texts are the fields as they are. -/
structure IsEntry (t : Table) (row : List String) (entry : Entry) : Prop where
  id : ∃ field, t.Holds row "id" field ∧ Text.readInt field.toList = .ok entry.id
  expression : t.Holds row "expression" entry.expression
  result : t.Holds row "result" entry.result

/-- The row of a variable. An empty field stands for what is not a number. -/
structure IsVariable (t : Table) (row : List String) (name : String) (x : Float) : Prop where
  name : t.Holds row "name" name
  value : ∃ field, t.Holds row "value" field ∧ (field = "" → x = Double.nan) ∧
    (field ≠ "" → Double.read? field = some x)

/-- Variables as the rows of a table give them, the last row of a name counting. -/
structure Gives (t : Table) (vars : Variables) : Prop where
  rows : ∀ row ∈ t.rows, ∃ name x, t.IsVariable row name x
  last : ∀ name x, vars[name]? = some x ↔ ∃ above row below, t.rows = above ++ row :: below ∧
    t.IsVariable row name x ∧ ∀ later ∈ below, ¬ t.Holds later "name" name

/-- The columns that a table lacks, in order and each once. -/
structure Lacks (t : Table) (columns missing : List String) : Prop where
  sorted : missing.Pairwise (· < ·)
  mem_iff : ∀ column, column ∈ missing ↔ column ∈ columns ∧ column ∉ t.header

variable {t : Table} {row columns : List String}

theorem holds_iff (ht : t.IsRegular) (hsub : columns ⊆ t.header) (hrow : row ∈ t.rows) :
    ∀ column ∈ columns, ∀ field, t.Holds row column field ↔ t.cell row column = field :=
  fun _ hcolumn _ => ⟨fun h => h.cell_eq ht.header,
    fun h => h ▸ holds_cell (ht.rows row hrow) (hsub hcolumn)⟩

theorem isEntry_iff (ht : t.IsRegular) (hsub : historyColumns ⊆ t.header) (hrow : row ∈ t.rows)
    {entry : Entry} :
    t.IsEntry row entry ↔ entryOfRow (historyColumns.map (t.cell row)) = .ok entry := by
  have hholds := holds_iff ht hsub hrow
  simp only [historyColumns, List.forall_mem_cons] at hholds
  obtain ⟨hid, hexpression, hresult, -⟩ := hholds
  rw [historyColumns, List.map_cons, List.map_cons, List.map_singleton, entryOfRow_eq_ok_iff,
    ← hexpression, ← hresult]
  constructor
  · rintro ⟨⟨field, hfield, hread⟩, hexpression, hresult⟩
    exact ⟨(hid field).1 hfield ▸ hread, hexpression, hresult⟩
  · rintro ⟨hread, hexpression, hresult⟩
    exact ⟨⟨_, (hid _).2 rfl, hread⟩, hexpression, hresult⟩

theorem isVariable_iff (ht : t.IsRegular) (hsub : variableColumns ⊆ t.header)
    (hrow : row ∈ t.rows) {entry : String × Float} : t.IsVariable row entry.1 entry.2 ↔
      variableOfRow (variableColumns.map (t.cell row)) = .ok entry := by
  have hholds := holds_iff ht hsub hrow
  simp only [variableColumns, List.forall_mem_cons] at hholds
  obtain ⟨hname, hvalue, -⟩ := hholds
  rw [variableColumns, List.map_cons, List.map_singleton, variableOfRow_eq_ok_iff,
    readValue?_eq_some_iff, ← hname]
  constructor
  · rintro ⟨hname, field, hfield, hread⟩
    exact ⟨hname, (hvalue field).1 hfield ▸ hread⟩
  · rintro ⟨hname, hread⟩
    exact ⟨hname, _, (hvalue _).2 rfl, hread⟩

theorem IsVariable.name_eq {name other : String} {x : Float} (h : t.IsVariable row name x)
    (ht : t.IsRegular) (hother : t.Holds row "name" other) : name = other :=
  (h.name.cell_eq ht.header).symm.trans (hother.cell_eq ht.header)

theorem IsVariable.unique {name name' : String} {x x' : Float} (h : t.IsVariable row name x)
    (ht : t.IsRegular) (h' : t.IsVariable row name' x') : (name, x) = (name', x') := by
  obtain ⟨field, hfield, hread⟩ := h.value
  obtain ⟨field', hfield', hread'⟩ := h'.value
  obtain rfl : field = field' := (hfield.cell_eq ht.header).symm.trans (hfield'.cell_eq ht.header)
  have hx := (readValue?_eq_some_iff.2 hread).symm.trans (readValue?_eq_some_iff.2 hread')
  rw [h.name_eq ht h'.name, Option.some.inj hx]

theorem gives_ofList (ht : t.IsRegular) {entries : List (String × Float)}
    (h : List.Forall₂ (fun row entry => t.IsVariable row entry.1 entry.2) t.rows entries) :
    t.Gives (Variables.ofList entries) := by
  have hback : List.Forall₂ (fun entry row => t.IsVariable row entry.1 entry.2) entries t.rows :=
    h.flip
  refine ⟨fun row hrow => ?_, fun name x => ?_⟩
  · obtain ⟨entry, -, hentry⟩ := exists_of_forall₂ h hrow
    exact ⟨entry.1, entry.2, hentry⟩
  · rw [Variables.getElem?_ofList_eq_some_iff]
    constructor
    · rintro ⟨before, after, rfl, hafter⟩
      obtain ⟨above, row, below, hrows, hrow, hbelow⟩ := exists_split_of_forall₂ hback
      refine ⟨above, row, below, hrows, hrow, fun later hlater hname => ?_⟩
      obtain ⟨entry, hentry, hvariable⟩ := exists_of_forall₂ hbelow.flip hlater
      exact hafter entry hentry (hvariable.name_eq ht hname)
    · rintro ⟨above, row, below, hrows, hrow, hbelow⟩
      rw [hrows] at h
      obtain ⟨before, entry, after, rfl, hentry, hafter⟩ := exists_split_of_forall₂ h
      obtain rfl : (name, x) = entry := hrow.unique ht hentry
      refine ⟨before, after, rfl, fun other hother heq => ?_⟩
      obtain ⟨later, hlater, hvariable⟩ := exists_of_forall₂ hafter.flip hother
      exact hbelow later hlater (heq ▸ hvariable.name)

theorem Gives.unique {vars vars' : Variables} (h : t.Gives vars) (h' : t.Gives vars') :
    vars = vars' := by
  refine Std.ExtTreeMap.ext_getElem? fun {name} => Option.ext fun x => ?_
  exact (h.last name x).trans (h'.last name x).symm

theorem lacks_missing (hcolumns : columns.Nodup) : t.Lacks columns (t.missing columns) :=
  ⟨pairwise_missing hcolumns, fun _ => mem_missing_iff⟩

end Table

section
variable (path : Path) {t : Table} {text : String}

theorem readHistory_eq_ok_iff (h : t.IsText text) (hsub : historyColumns ⊆ t.header)
    {history : List Entry} : readHistory path (some text) = .ok history ↔
      List.Forall₂ t.IsEntry t.rows history := by
  rw [readHistory_eq, readBy_of_subset h (by decide) (by decide) hsub, mapM_eq_ok_iff]
  exact forall₂_congr_of_mem fun row hrow entry => (Table.isEntry_iff h.regular hsub hrow).symm

theorem readVariables_eq_ok_iff (h : t.IsText text) (hsub : variableColumns ⊆ t.header)
    {entries : List (String × Float)} : readVariables path (some text) = .ok entries ↔
      List.Forall₂ (fun row entry => t.IsVariable row entry.1 entry.2) t.rows entries := by
  rw [readVariables_eq, readBy_of_subset h (by decide) (by decide) hsub, mapM_eq_ok_iff]
  exact forall₂_congr_of_mem fun row hrow entry =>
    (Table.isVariable_iff h.regular hsub hrow).symm

theorem map_readVariables_eq_ok_iff (h : t.IsText text) (hsub : variableColumns ⊆ t.header)
    {vars : Variables} :
    (readVariables path (some text)).map Variables.ofList = .ok vars ↔ t.Gives vars := by
  constructor
  · intro hread
    cases hentries : readVariables path (some text) with
    | error e => simp [hentries, Except.map] at hread
    | ok entries =>
      obtain rfl : Variables.ofList entries = vars := by
        simpa [hentries, Except.map] using hread
      exact Table.gives_ofList h.regular ((readVariables_eq_ok_iff path h hsub).1 hentries)
  · intro hgives
    have hrows : ∀ row ∈ t.rows, ∃ entry : String × Float, t.IsVariable row entry.1 entry.2 := by
      intro row hrow
      obtain ⟨name, x, hvariable⟩ := hgives.rows row hrow
      exact ⟨(name, x), hvariable⟩
    obtain ⟨entries, hentries⟩ := exists_forall₂ hrows
    rw [(readVariables_eq_ok_iff path h hsub).2 hentries,
      hgives.unique (Table.gives_ofList h.regular hentries)]
    rfl

end

/-- What is loaded from a text only depends on what its rows have in the columns asked for: not on
the order of the columns, on further ones, on the kind of line ends, on a missing last one or on a
byte order mark. The history has an entry for each row, in order; the value of a variable is the one
of the last row with its name. Where columns are missing, these are what the error names. -/
theorem loads_by_column (path : Path) {t : Table} {text : String} (h : t.IsText text) :
    (∀ t' text', Table.IsText t' text' →
      (t.Widens historyColumns t' →
        readHistory path (some text') = readHistory path (some text)) ∧
      (t.Widens variableColumns t' →
        readVariables path (some text') = readVariables path (some text))) ∧
    (∀ text', t.IsText text' → readHistory path (some text') = readHistory path (some text) ∧
      readVariables path (some text') = readVariables path (some text)) ∧
    (historyColumns ⊆ t.header → ∀ history,
      readHistory path (some text) = .ok history ↔ List.Forall₂ t.IsEntry t.rows history) ∧
    (variableColumns ⊆ t.header → ∀ vars,
      (readVariables path (some text)).map Variables.ofList = .ok vars ↔ t.Gives vars) ∧
    (¬ historyColumns ⊆ t.header → ∃ missing, t.Lacks historyColumns missing ∧
      readHistory path (some text) = .error (.missingHistoryColumns path missing)) ∧
    (¬ variableColumns ⊆ t.header → ∃ missing, t.Lacks variableColumns missing ∧
      readVariables path (some text) = .error (.missingVariableColumns path missing)) := by
  have hhistory : historyColumns.Nodup ∧ 2 ≤ historyColumns.length := by decide
  have hvariables : variableColumns.Nodup ∧ 2 ≤ variableColumns.length := by decide
  have hwide : ∀ t' text', Table.IsText t' text' →
      (t.Widens historyColumns t' →
        readHistory path (some text') = readHistory path (some text)) ∧
      (t.Widens variableColumns t' →
        readVariables path (some text') = readVariables path (some text)) := by
    refine fun t' text' h' => ⟨fun hwidens => ?_, fun hwidens => ?_⟩
    · rw [readHistory_eq, readHistory_eq]
      exact hwidens.readBy_eq h h' hhistory.1 hhistory.2
    · rw [readVariables_eq, readVariables_eq]
      exact hwidens.readBy_eq h h' hvariables.1 hvariables.2
  refine ⟨hwide, fun text' h' => ?_, fun hsub history => ?_, fun hsub vars => ?_,
    fun hsub => ?_, fun hsub => ?_⟩
  · exact ⟨(hwide t text' h').1 (.refl _ t), (hwide t text' h').2 (.refl _ t)⟩
  · exact readHistory_eq_ok_iff path h hsub
  · exact map_readVariables_eq_ok_iff path h hsub
  · exact ⟨t.missing historyColumns, Table.lacks_missing hhistory.1,
      (readHistory_eq path text).trans
        (readBy_of_missing h (mt Table.missing_eq_nil_iff.1 hsub))⟩
  · exact ⟨t.missing variableColumns, Table.lacks_missing hvariables.1,
      (readVariables_eq path text).trans
        (readBy_of_missing h (mt Table.missing_eq_nil_iff.1 hsub))⟩

/-- A text with a byte order mark, both kinds of line ends, one column more, all in another order,
and a field with a comma and a quote; one with a name twice; and one without values. -/
theorem loads_by_column_quoted :
    let path := Path.ofString "/state.csv"
    let history := "id,expression,result\n7,2+2,\"x,\"\"y\"\n"
    let further := "\ufeffresult,note,id,expression\r\n\"x,\"\"y\",,7,\"2+2\""
    readHistory path (some further) = readHistory path (some history) ∧
      readHistory path (some history) = .ok [⟨7, "2+2", "x,\"y"⟩] ∧
      (∃ vars, (readVariables path (some "name,value\na,1\na,\n")).map Variables.ofList = .ok vars ∧
        vars["a"]? = some Double.nan) ∧
      ∃ missing, "value" ∈ missing ∧
        readVariables path (some "name\na\n") = .error (.missingVariableColumns path missing) := by
  intro path history further
  let t : Table := ⟨historyColumns, [["7", "2+2", "x,\"y"]]⟩
  let t' : Table := ⟨["result", "note", "id", "expression"], [["x,\"y", "", "7", "2+2"]]⟩
  let twice : Table := ⟨variableColumns, [["a", "1"], ["a", ""]]⟩
  let names : Table := ⟨["name"], [["a"]]⟩
  have ht : t.IsText history :=
    Table.isText_write (t := t) ⟨by decide, by decide⟩ (by decide) (by decide) (by decide)
  have ht' : t'.IsText further := by
    have htext : afterMark further.toList = writeRow t'.header ++ (['\r', '\n'] ++
        (writeField "x,\"y" ++ ',' :: (writeField "" ++ ',' :: (writeField "7" ++ ',' ::
          ('"' :: doubleQuotes "2+2".toList ++ ['"']))))) := by decide +kernel
    refine ⟨⟨by decide, by decide⟩, ?_, by decide⟩
    rw [htext]
    refine .cons (spellsRow_writeRow (by decide) (by decide)) .returnFeed (.last ?_)
    exact .cons (spellsField_writeField (by decide)) (.cons (spellsField_writeField (by decide))
      (.cons (spellsField_writeField (by decide)) (.last (.quoted "2+2"))))
  have htwice : twice.IsText "name,value\na,1\na,\n" :=
    Table.isText_write (t := twice) ⟨by decide, by decide⟩ (by decide) (by decide) (by decide)
  have hnames : names.IsText "name\na\n" :=
    Table.isText_write (t := names) ⟨by decide, by decide⟩ (by decide) (by decide) (by decide)
  obtain ⟨hwide, -, hhistory, -⟩ := loads_by_column path ht
  obtain ⟨-, -, -, hvars, -⟩ := loads_by_column path htwice
  obtain ⟨-, -, -, -, -, hmissing⟩ := loads_by_column path hnames
  refine ⟨(hwide t' further ht').1 ⟨by decide, .cons (by decide) .nil, by decide⟩,
    (hhistory (by decide) _).2 (.cons ⟨⟨"7", by decide, by decide⟩, by decide, by decide⟩ .nil),
    ⟨Variables.ofList [("a", 1), ("a", Double.nan)], (hvars (by decide) _).2 ?_, ?_⟩, ?_⟩
  · refine Table.gives_ofList htwice.regular (.cons ?_ (.cons ?_ .nil))
    · exact ⟨by decide, "1", by decide, by decide, fun _ => by decide +kernel⟩
    · exact ⟨by decide, "", by decide, fun _ => rfl, fun h => absurd rfl h⟩
  · simp [Variables.ofList]
  · obtain ⟨missing, hlacks, hread⟩ := hmissing (by decide)
    exact ⟨missing, (hlacks.mem_iff "value").2 (by decide), hread⟩

/-- A byte order mark is lost only where it comes first, and a blank line is lost even where it is
the header. -/
theorem loads_by_column_mark :
    let path := Path.ofString "/history.csv"
    let t : Table := ⟨["\ufeffid", "expression", "result"], [["1", "a", "b"]]⟩
    let text := "\ufeffid,expression,result\n1,a,b\n"
    let t' : Table := ⟨["expression", "\ufeffid", "result"], [["a", "1", "b"]]⟩
    let text' := "expression,\ufeffid,result\na,1,b\n"
    let blank : Table := ⟨[" "], [["id"]]⟩
    let blankText := " \nid\n"
    (t.IsRegular ∧ SpellsRows text.toList (t.header :: t.rows)) ∧
      (t'.IsRegular ∧ SpellsRows text'.toList (t'.header :: t'.rows)) ∧
      t.Widens historyColumns t' ∧
      readHistory path (some text) = .ok [⟨1, "a", "b"⟩] ∧
      readHistory path (some text') = .error (.missingHistoryColumns path ["id"]) ∧
      (blank.IsRegular ∧ SpellsRows blankText.toList (blank.header :: blank.rows)) ∧
      "id" ∉ blank.header ∧
      readHistory path (some blankText) =
        .error (.missingHistoryColumns path ["expression", "result"]) := by
  intro path t text t' text' blank blankText
  have hblank : Table.read? blankText = some ⟨["id"], []⟩ := by decide +kernel
  have hmissing : (⟨["id"], []⟩ : Table).missing historyColumns = ["expression", "result"] :=
    List.mergeSort_of_pairwise (l := ["expression", "result"]) (by decide)
  refine ⟨⟨⟨by decide, by decide⟩, Table.spellsRows_toList_write (t := t) (by decide)⟩,
    ⟨⟨by decide, by decide⟩, Table.spellsRows_toList_write (t := t') (by decide)⟩,
    ⟨by decide, .cons (by decide) .nil, by decide⟩, by decide +kernel, by decide +kernel,
    ⟨⟨by decide, by decide⟩, Table.spellsRows_toList_write (t := blank) (by decide)⟩,
    by decide, ?_⟩
  simp only [readHistory_eq, readBy, hblank, Option.elim_some, bind, Except.bind, hmissing]

end Reckoner.Storage
