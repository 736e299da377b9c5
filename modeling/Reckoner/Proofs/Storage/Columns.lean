import Mathlib.Tactic
import Reckoner.Proofs.Storage.Table

/-!
# Tables by their columns

A text of a table is read as the table (`Table.IsText.exists_read?`), except for the rows of a table
with a single column. A field is found by its column (`Table.holds_cell`, `Table.Holds.cell_eq`), so
a table that has the fields of another one in the same columns, and any more columns, has the same
cells (`Table.Widens.cells`) and lacks the same columns (`Table.Widens.missing_eq`).
-/

namespace Reckoner.Storage

/-- The first line of a text, without its end. -/
def firstLine (cs : List Char) : List Char := cs.takeWhile fun c => c != '\n' && c != '\r'

theorem EndsLine.firstLine_eq_nil {tail : List Char} {rows : List (List String)}
    (h : EndsLine tail rows) : firstLine tail = [] := by
  cases h with
  | text => rfl
  | line h => cases h <;> rfl

theorem EndsLine.not_isBlankLine {line tail : List Char} {rows : List (List String)}
    (h : EndsLine tail rows) (hfirst : ¬ IsBlankLine (firstLine (line ++ tail))) :
    ¬ IsBlankLine line := by
  intro hblank
  have htext : ∀ c ∈ line, (c != '\n' && c != '\r') = true := by
    intro c hc
    rcases hblank c hc with rfl | rfl <;> decide
  rw [firstLine, List.takeWhile_append_of_pos htext] at hfirst
  have htail := h.firstLine_eq_nil
  rw [firstLine] at htail
  rw [htail, List.append_nil] at hfirst
  exact hfirst hblank

/-- The first row has a line, and what follows it is read as the other rows if those have two fields
and more. -/
theorem SpellsRows.exists_line {cs : List Char} {row : List String} {rows : List (List String)}
    (h : SpellsRows cs (row :: rows)) : ∃ line tail others, cs = line ++ tail ∧
      SpellsRow line row ∧ EndsLine tail others ∧
      ((∀ row ∈ rows, 2 ≤ row.length) → others = rows) := by
  cases h with
  | last h => exact ⟨cs, [], [], (List.append_nil _).symm, h, .text, fun _ => rfl⟩
  | cons h hend hrows => exact ⟨_, _, _, rfl, h, .line hend _, hrows.read⟩

namespace Table

/-- A table that names each column once and gives every row a field in each. -/
structure IsRegular (t : Table) : Prop where
  header : t.header.Nodup
  rows : ∀ row ∈ t.rows, row.length = t.header.length

/-- A text of a table. A byte order mark before it belongs to no name, and a blank line is no
header. -/
structure IsText (t : Table) (text : String) : Prop where
  regular : t.IsRegular
  lines : SpellsRows (afterMark text.toList) (t.header :: t.rows)
  header : ¬ IsBlankLine (firstLine (afterMark text.toList))

variable {t t' : Table} {text text' : String} {row : List String} {column field : String}
  {columns : List String}

theorem IsText.exists_read? (h : t.IsText text) :
    ∃ rows, read? text = some ⟨t.header, rows⟩ ∧ (2 ≤ t.header.length → rows = t.rows) := by
  obtain ⟨line, tail, others, htext, hline, htail, hothers⟩ := h.lines.exists_line
  have hheader := h.header
  rw [htext] at hheader
  have hread : readRows text = t.header :: others := by
    rw [readRows_eq, htext, hline.read htail rfl fun _ => htail.not_isBlankLine hheader]
    rfl
  refine ⟨others, by rw [read?, hread], fun hlen => hothers fun row hrow => ?_⟩
  rw [h.regular.rows row hrow]
  exact hlen

/-! ## Fields by column -/

/-- A row has a field in a column. -/
def Holds (t : Table) (row : List String) (column field : String) : Prop :=
  (column, field) ∈ t.header.zip row

instance (t : Table) (row : List String) (column field : String) :
    Decidable (t.Holds row column field) :=
  inferInstanceAs (Decidable ((column, field) ∈ t.header.zip row))

theorem holds_cell (hrow : row.length = t.header.length) (hcolumn : column ∈ t.header) :
    t.Holds row column (t.cell row column) := by
  cases hindex : t.header.idxOf? column with
  | none => exact absurd hcolumn (List.idxOf?_eq_none_iff.1 hindex)
  | some i =>
    obtain ⟨hi, hname, -⟩ := List.idxOf?_eq_some_iff.1 hindex
    have hcell : t.cell row column = row[i] := by
      rw [cell, hindex, Option.bind_some, List.getElem?_eq_getElem (hrow ▸ hi), Option.getD_some]
    rw [hcell, Holds, ← hname, ← List.getElem_zip (h := by simp [hrow, hi])]
    exact List.getElem_mem _

theorem Holds.cell_eq (h : t.Holds row column field) (hheader : t.header.Nodup) :
    t.cell row column = field := by
  obtain ⟨i, hi, hpair⟩ := List.mem_iff_getElem.1 h
  rw [List.getElem_zip, Prod.mk.injEq] at hpair
  obtain ⟨hname, hfield⟩ := hpair
  obtain ⟨hheader', hrow⟩ : i < t.header.length ∧ i < row.length := by
    simpa using hi
  have hindex : t.header.idxOf? column = some i := by
    refine List.idxOf?_eq_some_iff.2 ⟨hheader', hname, fun j hj heq => ?_⟩
    have hsame : j = i := hheader.getElem_inj_iff.1 (heq.trans hname.symm)
    omega
  rw [cell, hindex, Option.bind_some, List.getElem?_eq_getElem hrow, Option.getD_some, hfield]

/-! ## Missing columns -/

theorem mem_missing_iff : column ∈ t.missing columns ↔ column ∈ columns ∧ column ∉ t.header := by
  simp [missing]

theorem missing_eq_nil_iff : t.missing columns = [] ↔ columns ⊆ t.header := by
  rw [List.eq_nil_iff_forall_not_mem]
  simp only [mem_missing_iff, not_and, not_not]
  rfl

/-- The missing columns are named in order, each once. -/
theorem pairwise_missing (hcolumns : columns.Nodup) :
    (t.missing columns).Pairwise (· < ·) := by
  have hle : (t.missing columns).Pairwise fun a b => decide (a ≤ b) = true :=
    List.pairwise_mergeSort (by simpa using fun a b c => String.le_trans)
      (by simpa using String.le_total) _
  have hne : (t.missing columns).Nodup :=
    (List.mergeSort_perm _ _).nodup_iff.2 (hcolumns.filter _)
  refine (hle.and hne).imp fun {a b} h => ?_
  by_contra hlt
  exact h.2 (String.le_antisymm (of_decide_eq_true h.1) (String.not_lt.1 hlt))

theorem missing_congr (h : ∀ column ∈ columns, column ∈ t.header ↔ column ∈ t'.header) :
    t.missing columns = t'.missing columns := by
  have hfilter : columns.filter (fun column => !t.header.contains column) =
      columns.filter fun column => !t'.header.contains column := by
    refine List.filter_congr fun column hcolumn => ?_
    simp [h column hcolumn]
  rw [missing, missing, hfilter]

/-! ## Further columns -/

/-- A table that has the fields of another one in the same columns. It may have them in another
order and have more columns, though none of those asked for. -/
structure Widens (columns : List String) (t t' : Table) : Prop where
  header : t.header ⊆ t'.header
  rows : List.Forall₂ (fun row row' => t.header.zip row ⊆ t'.header.zip row') t.rows t'.rows
  added : ∀ column ∈ columns, column ∈ t'.header → column ∈ t.header

theorem Widens.refl (columns : List String) (t : Table) : t.Widens columns t where
  header := List.Subset.refl _
  rows := List.forall₂_same.2 fun _ _ => List.Subset.refl _
  added := fun _ _ => id

theorem Widens.missing_eq (h : t.Widens columns t') :
    t'.missing columns = t.missing columns :=
  missing_congr fun column hcolumn => ⟨h.added column hcolumn, fun hmem => h.header hmem⟩

/-- Both tables have the same rows, as far as the columns asked for go. -/
theorem Widens.cells (h : t.Widens columns t') (ht : t.IsRegular) (ht' : t'.IsRegular)
    (hcolumns : columns ⊆ t.header) : List.Forall₂ (fun row row' =>
      ∀ column ∈ columns, t.cell row column = t'.cell row' column) t.rows t'.rows := by
  refine List.Forall₂.imp ?_ ((List.forall₂_and_left _ _).2 ⟨ht.rows, h.rows⟩)
  rintro row row' ⟨hrow, hsub⟩ column hcolumn
  have hholds : t'.Holds row' column (t.cell row column) :=
    hsub (holds_cell hrow (hcolumns hcolumn))
  exact (hholds.cell_eq ht'.header).symm

/-! ## Written tables -/

theorem spellsRows_toList_write (h : ∀ row ∈ t.header :: t.rows, row ≠ [] ∧ ∀ f ∈ row, IsKept f) :
    SpellsRows t.write.toList (t.header :: t.rows) := by
  rw [write, String.toList_ofList]
  exact spellsRows_write h

theorem isText_write (ht : t.IsRegular)
    (h : ∀ row ∈ t.header :: t.rows, row ≠ [] ∧ ∀ f ∈ row, IsKept f)
    (hmark : t.write.toList.head? ≠ some '\ufeff')
    (hheader : ¬ IsBlankLine (firstLine t.write.toList)) : t.IsText t.write where
  regular := ht
  lines := by
    rw [afterMark_eq hmark]
    exact spellsRows_toList_write h
  header := by rwa [afterMark_eq hmark]

end Table

end Reckoner.Storage
