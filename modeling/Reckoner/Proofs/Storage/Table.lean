import Mathlib.Tactic
import Reckoner.Storage.Table

/-!
# Tables read back

A text spells rows (`SpellsRows`) as lines of fields, each field with or without quotes. The reader
gives back the rows spelled, except for blank lines, which only a row of a single field can have
(`SpellsRow.read`, `SpellsRows.read`).

A field is written in one of its spellings unless there is a carriage return in it and nothing that
makes the writer put quotes around it (`IsKept`).

* `Table.read?_write`: a table is read back if all of its fields are kept, no row has a single field
  and no byte order mark comes first.
* `returns_write_lt`: of a table with a field that is not kept, fewer carriage returns are read than
  were written, for the reader never adds one (`returns_readRowsFrom_le`).
-/

namespace Reckoner.Storage

/-! ## One step of the reader -/

section
variable {position : Position} {field : List Char} {row : List String} {c : Char}
  {rest : List Char}

/-- A character that neither ends a field nor opens or ends quotes. -/
def IsText (c : Char) : Prop := needsQuotes c = false ∧ c ≠ '\r'

theorem readRowsFrom_text (hp : position ≠ .quoted) (hc : IsText c) :
    readRowsFrom position field row (c :: rest) =
      readRowsFrom (position.afterText c) (c :: field) row rest := by
  obtain ⟨hq, hr⟩ := hc
  simp only [needsQuotes, Bool.or_eq_false_iff, beq_eq_false_iff_ne] at hq
  obtain ⟨⟨hcomma, hquote⟩, hline⟩ := hq
  simp [readRowsFrom, hp, hquote, hcomma, hline, hr]

theorem readRowsFrom_comma (hp : position ≠ .quoted) :
    readRowsFrom position field row (',' :: rest) =
      readRowsFrom .fieldStart [] (String.ofList field.reverse :: row) rest := by
  simp [readRowsFrom, hp]

theorem readRowsFrom_break (hp : position ≠ .quoted) (hb : position.isBlank = false)
    (hc : c = '\n' ∨ c = '\r') :
    readRowsFrom position field row (c :: rest) =
      (String.ofList field.reverse :: row).reverse :: readRowsFrom .lineStart [] [] rest := by
  rcases hc with rfl | rfl <;> simp [readRowsFrom, readRowsFrom.endRow, hp, hb]

theorem afterText_ne_quoted (position : Position) (c : Char) :
    position.afterText c ≠ .quoted := by
  unfold Position.afterText
  split <;> simp

end

/-! ## Spelling -/

/-- The characters between the quotes around a field. -/
def doubleQuotes (cs : List Char) : List Char :=
  cs.flatMap fun c => if c == '"' then ['"', '"'] else [c]

theorem doubleQuotes_cons (c : Char) (cs : List Char) :
    doubleQuotes (c :: cs) = (if c = '"' then ['"', '"'] else [c]) ++ doubleQuotes cs := by
  simp [doubleQuotes]

/-- The ways to spell a field: only some need quotes, all may have them. -/
inductive SpellsField : List Char → String → Prop
  | plain {field : String} (h : ∀ c ∈ field.toList, IsText c) : SpellsField field.toList field
  | quoted (field : String) : SpellsField ('"' :: doubleQuotes field.toList ++ ['"']) field

inductive SpellsRow : List Char → List String → Prop
  | last {cs : List Char} {field : String} (h : SpellsField cs field) : SpellsRow cs [field]
  | cons {cs line : List Char} {field : String} {row : List String} (h : SpellsField cs field)
      (hrow : SpellsRow line row) : SpellsRow (cs ++ ',' :: line) (field :: row)

inductive IsLineEnd : List Char → Prop
  | feed : IsLineEnd ['\n']
  | returnFeed : IsLineEnd ['\r', '\n']

/-- Rows as lines, of which the last may lack its end. -/
inductive SpellsRows : List Char → List (List String) → Prop
  | nil : SpellsRows [] []
  | last {line : List Char} {row : List String} (h : SpellsRow line row) : SpellsRows line [row]
  | cons {line lineEnd rest : List Char} {row : List String} {rows : List (List String)}
      (h : SpellsRow line row) (hend : IsLineEnd lineEnd) (hrows : SpellsRows rest rows) :
      SpellsRows (line ++ (lineEnd ++ rest)) (row :: rows)

/-- A line that does not count. -/
def IsBlankLine (line : List Char) : Prop := ∀ c ∈ line, c = ' ' ∨ c = '\t'

-- spelled out, since instance search may find one that goes through every character there is
instance (line : List Char) : Decidable (IsBlankLine line) :=
  List.decidableBAll (fun c => c = ' ' ∨ c = '\t') line

theorem SpellsRow.not_isBlankLine {line : List Char} {row : List String} (h : SpellsRow line row)
    (hlen : 2 ≤ row.length) : ¬ IsBlankLine line := by
  cases h with
  | last => simp at hlen
  | cons => exact fun hblank => absurd (hblank ',' (by simp)) (by decide)

/-! ## Reading what is spelled -/

/-- Outside quotes, the reader puts the characters of a field together from those that spell it. A
line is only blank from there if it was so far and these characters are. -/
structure Reads (position : Position) (cs chars : List Char) (next : Position) : Prop where
  outside : next ≠ .quoted
  blank : next.isBlank = true → position.isBlank = true ∧ IsBlankLine cs
  read : ∀ field row rest, readRowsFrom position field row (cs ++ rest) =
    readRowsFrom next (chars.reverse ++ field) row rest

section
variable {position : Position} {field : String} {fields : List String}
  {rows : List (List String)} {c : Char} {cs line tail : List Char}

theorem isBlank_afterText (h : (position.afterText c).isBlank = true) :
    position.isBlank = true ∧ (c = ' ' ∨ c = '\t') := by
  unfold Position.afterText at h
  split at h
  · rename_i hblank
    simpa using hblank
  · cases h

theorem exists_reads_plain (hp : position ≠ .quoted) (h : ∀ c ∈ cs, IsText c) :
    ∃ next, Reads position cs cs next := by
  induction cs generalizing position with
  | nil => exact ⟨position, hp, fun hb => ⟨hb, by simp [IsBlankLine]⟩, fun _ _ _ => rfl⟩
  | cons c cs ih =>
    obtain ⟨hc, hcs⟩ := List.forall_mem_cons.1 h
    obtain ⟨next, hnext⟩ := ih (afterText_ne_quoted position c) hcs
    refine ⟨next, hnext.outside, fun hb => ?_, fun field row rest => ?_⟩
    · obtain ⟨hafter, hblank⟩ := hnext.blank hb
      obtain ⟨hposition, hspace⟩ := isBlank_afterText hafter
      exact ⟨hposition, List.forall_mem_cons.2 ⟨hspace, hblank⟩⟩
    · rw [List.cons_append, readRowsFrom_text hp hc, hnext.read]
      simp

theorem ne_quoted_of_opensQuotes (hp : position.opensQuotes = true) : position ≠ .quoted := by
  rintro rfl
  cases hp

theorem readRowsFrom_doubleQuotes (field cs : List Char) (row : List String) (rest : List Char) :
    readRowsFrom .quoted field row (doubleQuotes cs ++ '"' :: rest) =
      readRowsFrom .quoteSeen (cs.reverse ++ field) row rest := by
  induction cs generalizing field with
  | nil => simp [doubleQuotes, readRowsFrom]
  | cons c cs ih =>
    rw [doubleQuotes_cons, List.append_assoc]
    by_cases hc : c = '"'
    · simpa [hc, readRowsFrom] using ih ('"' :: field)
    · simpa [hc, readRowsFrom] using ih (c :: field)

theorem reads_quoted (hp : position.opensQuotes = true) (cs : List Char) :
    Reads position ('"' :: doubleQuotes cs ++ ['"']) cs .quoteSeen where
  outside := by decide
  blank hb := by cases hb
  read field row rest := by
    have hq : position ≠ .quoted ∧ position ≠ .quoteSeen := by
      constructor <;> (rintro rfl; cases hp)
    have hopen : ∀ rest, readRowsFrom position field row ('"' :: rest) =
        readRowsFrom .quoted field row rest := by
      intro rest
      simp [readRowsFrom, hq, hp]
    rw [List.cons_append, List.cons_append, hopen, List.append_assoc, List.singleton_append,
      readRowsFrom_doubleQuotes]

theorem SpellsField.exists_reads (h : SpellsField cs field) (hp : position.opensQuotes = true) :
    ∃ next, Reads position cs field.toList next := by
  cases h with
  | plain h => exact exists_reads_plain (ne_quoted_of_opensQuotes hp) h
  | quoted => exact ⟨_, reads_quoted hp _⟩

/-- What follows a line, and the rows read from there. -/
inductive EndsLine : List Char → List (List String) → Prop
  | text : EndsLine [] []
  | line {lineEnd : List Char} (h : IsLineEnd lineEnd) (rest : List Char) :
      EndsLine (lineEnd ++ rest) (readRowsFrom .lineStart [] [] rest)

theorem EndsLine.read (h : EndsLine tail rows) (hp : position ≠ .quoted)
    (hb : position.isBlank = false) (field : List Char) (row : List String) :
    readRowsFrom position field row tail = readRowsFrom.endRow field row :: rows := by
  cases h with
  | text => simp [readRowsFrom, hb]
  | line h rest =>
    cases h with
    | feed => exact readRowsFrom_break hp hb (.inl rfl)
    | returnFeed =>
      rw [List.cons_append, readRowsFrom_break hp hb (.inr rfl)]
      simp [readRowsFrom, Position.isBlank, readRowsFrom.endRow]

/-- A row is read from its line, unless that is blank. -/
theorem SpellsRow.read (h : SpellsRow line fields) (htail : EndsLine tail rows)
    (hp : position.opensQuotes = true) (hline : position.isBlank = true → ¬ IsBlankLine line)
    (row : List String) :
    readRowsFrom position [] row (line ++ tail) = (row.reverse ++ fields) :: rows := by
  induction h generalizing position row with
  | last h =>
    obtain ⟨next, hnext⟩ := h.exists_reads hp
    have hblank : next.isBlank = false := by
      refine Bool.eq_false_iff.2 fun hb => ?_
      obtain ⟨hposition, hcs⟩ := hnext.blank hb
      exact hline hposition hcs
    rw [hnext.read, htail.read hnext.outside hblank]
    simp [readRowsFrom.endRow]
  | cons h _ ih =>
    obtain ⟨next, hnext⟩ := h.exists_reads hp
    rw [List.append_assoc, hnext.read, List.cons_append, readRowsFrom_comma hnext.outside,
      ih rfl (fun hb => by cases hb)]
    simp

theorem SpellsRows.read (h : SpellsRows cs rows) (hlen : ∀ row ∈ rows, 2 ≤ row.length) :
    readRowsFrom .lineStart [] [] cs = rows := by
  induction h with
  | nil => rfl
  | last h =>
    have hline := h.not_isBlankLine (hlen _ (List.mem_singleton_self _))
    simpa using h.read .text rfl (fun _ => hline) []
  | cons h hend _ ih =>
    obtain ⟨hrow, hrows⟩ := List.forall_mem_cons.1 hlen
    rw [h.read (.line hend _) rfl (fun _ => h.not_isBlankLine hrow), ih hrows]
    rfl

end

/-! ## Reading what was written -/

/-- A field that is read back: a carriage return in it needs quotes around it, and those are only
written for other characters. -/
def IsKept (field : String) : Prop :=
  '\r' ∈ field.toList → field.toList.any needsQuotes = true

instance (field : String) : Decidable (IsKept field) :=
  inferInstanceAs (Decidable (_ → _))

theorem writeField_eq (field : String) :
    writeField field = if field.toList.any needsQuotes then
      '"' :: doubleQuotes field.toList ++ ['"'] else field.toList := rfl

theorem spellsField_writeField {field : String} (h : IsKept field) :
    SpellsField (writeField field) field := by
  rw [writeField_eq]
  split
  · exact .quoted field
  · rename_i hplain
    refine .plain fun c hc => ⟨?_, ?_⟩
    · cases hq : needsQuotes c with
      | false => rfl
      | true => exact absurd (List.any_eq_true.2 ⟨c, hc, hq⟩) hplain
    · rintro rfl
      exact hplain (h hc)

theorem writeRow_cons_cons (f g : String) (fs : List String) :
    writeRow (f :: g :: fs) = writeField f ++ ',' :: writeRow (g :: fs) := rfl

theorem spellsRow_writeRow {row : List String} (hne : row ≠ []) (h : ∀ f ∈ row, IsKept f) :
    SpellsRow (writeRow row) row := by
  induction row with
  | nil => exact absurd rfl hne
  | cons f fs ih =>
    obtain ⟨hf, hfs⟩ := List.forall_mem_cons.1 h
    cases fs with
    | nil =>
      have hrow : writeRow [f] = writeField f := by simp [writeRow]
      exact hrow ▸ .last (spellsField_writeField hf)
    | cons g fs => exact .cons (spellsField_writeField hf) (ih (by simp) hfs)

theorem spellsRows_write {rows : List (List String)}
    (h : ∀ row ∈ rows, row ≠ [] ∧ ∀ f ∈ row, IsKept f) :
    SpellsRows (rows.flatMap fun row => writeRow row ++ ['\n']) rows := by
  induction rows with
  | nil => exact .nil
  | cons row rows ih =>
    obtain ⟨⟨hne, hrow⟩, hrows⟩ := List.forall_mem_cons.1 h
    rw [List.flatMap_cons, List.append_assoc]
    exact .cons (spellsRow_writeRow hne hrow) .feed (ih hrows)

/-- A row of a single field may be blank, and then it does not count. -/
theorem readRowsFrom_lineStart {fields : List String} (hlen : 2 ≤ fields.length)
    (h : ∀ f ∈ fields, IsKept f) (rest : List Char) :
    readRowsFrom .lineStart [] [] (writeRow fields ++ '\n' :: rest) =
      fields :: readRowsFrom .lineStart [] [] rest := by
  have hrow := spellsRow_writeRow (List.ne_nil_of_length_pos (by omega)) h
  exact hrow.read (.line .feed rest) rfl (fun _ => hrow.not_isBlankLine hlen) []

/-- The characters of a text that are read, without a byte order mark before them. -/
def afterMark : List Char → List Char
  | '\ufeff' :: rest => rest
  | cs => cs

theorem afterMark_eq {cs : List Char} (h : cs.head? ≠ some '\ufeff') : afterMark cs = cs := by
  unfold afterMark
  split
  · simp at h
  · rfl

theorem readRows_eq (text : String) :
    readRows text = readRowsFrom .lineStart [] [] (afterMark text.toList) := rfl

namespace Table

variable {t : Table}

/-- The header is read back whatever becomes of the other rows. -/
theorem read?_write_eq (hlen : 2 ≤ t.header.length) (hheader : ∀ f ∈ t.header, IsKept f)
    (hmark : t.write.toList.head? ≠ some '\ufeff') :
    read? t.write = some ⟨t.header, readRowsFrom .lineStart [] []
      (t.rows.flatMap fun row => writeRow row ++ ['\n'])⟩ := by
  have hrows : readRows t.write = t.header :: readRowsFrom .lineStart [] []
      (t.rows.flatMap fun row => writeRow row ++ ['\n']) := by
    rw [readRows_eq, afterMark_eq hmark, write, String.toList_ofList, List.flatMap_cons,
      List.append_assoc, List.singleton_append, readRowsFrom_lineStart hlen hheader]
  rw [read?, hrows]

/-- A table is read back if its rows have two fields and more, and all of them are kept. -/
theorem read?_write (h : ∀ row ∈ t.header :: t.rows, 2 ≤ row.length ∧ ∀ f ∈ row, IsKept f)
    (hmark : t.write.toList.head? ≠ some '\ufeff') : read? t.write = some t := by
  obtain ⟨⟨hlen, hheader⟩, hrows⟩ := List.forall_mem_cons.1 h
  have hspell := spellsRows_write fun row hrow =>
    ⟨List.ne_nil_of_length_pos (by have := (hrows row hrow).1; omega), (hrows row hrow).2⟩
  rw [read?_write_eq hlen hheader hmark, hspell.read fun row hrow => (hrows row hrow).1]

end Table

/-! ## Carriage returns -/

/-- The carriage returns in the fields of a row. -/
def rowReturns (row : List String) : Nat := (row.map fun field => field.toList.count '\r').sum

/-- The carriage returns in all fields. -/
def returns (rows : List (List String)) : Nat := (rows.map rowReturns).sum

@[simp] theorem rowReturns_nil : rowReturns [] = 0 := rfl

@[simp] theorem rowReturns_cons (field : String) (row : List String) :
    rowReturns (field :: row) = field.toList.count '\r' + rowReturns row := by simp [rowReturns]

@[simp] theorem returns_nil : returns [] = 0 := rfl

@[simp] theorem returns_cons (row : List String) (rows : List (List String)) :
    returns (row :: rows) = rowReturns row + returns rows := by simp [returns]

@[simp] theorem rowReturns_reverse (row : List String) :
    rowReturns row.reverse = rowReturns row := by
  simp [rowReturns]

theorem rowReturns_endRow (field : List Char) (row : List String) :
    rowReturns (readRowsFrom.endRow field row) = field.count '\r' + rowReturns row := by
  rw [readRowsFrom.endRow, rowReturns_reverse, rowReturns_cons, String.toList_ofList,
    List.count_reverse]

/-- The reader adds no carriage return to those of the text. -/
theorem returns_readRowsFrom_le (position : Position) (field : List Char) (row : List String)
    (cs : List Char) : returns (readRowsFrom position field row cs) ≤
      cs.count '\r' + field.count '\r' + rowReturns row := by
  -- each step puts the character into the field or leaves it out
  fun_induction readRowsFrom position field row cs <;>
    simp [rowReturns_endRow, List.count_cons] at * <;> omega

/-- A carriage return outside quotes is in no field. -/
theorem returns_readRowsFrom_lt {position : Position} (hp : position ≠ .quoted)
    (field : List Char) (row : List String) {cs : List Char}
    (h : ∀ c ∈ cs, needsQuotes c = false) (hreturn : '\r' ∈ cs) (rest : List Char) :
    returns (readRowsFrom position field row (cs ++ rest)) <
      (cs ++ rest).count '\r' + field.count '\r' + rowReturns row := by
  induction cs generalizing position field with
  | nil => cases hreturn
  | cons c cs ih =>
    obtain ⟨hc, hcs⟩ := List.forall_mem_cons.1 h
    -- the first carriage return ends a row, and what is left of it is in no field
    by_cases hr : c = '\r'
    · subst hr
      have hrest := returns_readRowsFrom_le .lineStart [] [] (cs ++ rest)
      simp only [List.count_nil, rowReturns_nil] at hrest
      rw [List.cons_append, List.count_cons_self]
      cases hb : position.isBlank with
      | true =>
        have hread : readRowsFrom position field row ('\r' :: (cs ++ rest)) =
            readRowsFrom .lineStart [] [] (cs ++ rest) := by
          simp [readRowsFrom, hp, hb]
        rw [hread]
        omega
      | false =>
        rw [readRowsFrom_break hp hb (.inr rfl), returns_cons, rowReturns_reverse, rowReturns_cons,
          String.toList_ofList, List.count_reverse]
        omega
    · have hmem : '\r' ∈ cs := (List.mem_cons.1 hreturn).resolve_left (Ne.symm hr)
      have hrest := ih (afterText_ne_quoted position c) (c :: field) hcs hmem
      rw [List.count_cons_of_ne hr] at hrest
      rw [List.cons_append, readRowsFrom_text hp ⟨hc, hr⟩, List.count_cons_of_ne hr]
      exact hrest

theorem count_doubleQuotes (cs : List Char) : (doubleQuotes cs).count '\r' = cs.count '\r' := by
  induction cs with
  | nil => rfl
  | cons c cs ih =>
    rw [doubleQuotes_cons, List.count_append, ih]
    by_cases hc : c = '"'
    · subst hc
      simp
    · simp [hc, List.count_cons, Nat.add_comm]

theorem count_writeField (field : String) :
    (writeField field).count '\r' = field.toList.count '\r' := by
  rw [writeField_eq]
  split
  · rw [List.cons_append, List.count_cons_of_ne (by decide), List.count_append, count_doubleQuotes]
    rfl
  · rfl

theorem exists_writeRow_cons (field : String) (row : List String) :
    ∃ tail, writeRow (field :: row) = writeField field ++ tail ∧
      tail.count '\r' = rowReturns row := by
  induction row generalizing field with
  | nil => exact ⟨[], by simp [writeRow], rfl⟩
  | cons next rest ih =>
    obtain ⟨tail, htail, hcount⟩ := ih next
    refine ⟨',' :: writeRow (next :: rest), writeRow_cons_cons .., ?_⟩
    rw [List.count_cons_of_ne (by decide), htail, List.count_append, count_writeField, hcount,
      rowReturns_cons]

theorem count_writeRow (row : List String) : (writeRow row).count '\r' = rowReturns row := by
  cases row with
  | nil => rfl
  | cons field rest =>
    obtain ⟨tail, htail, hcount⟩ := exists_writeRow_cons field rest
    rw [htail, List.count_append, count_writeField, hcount, rowReturns_cons]

/-- The reader loses a carriage return of a field that is not kept. -/
theorem returns_writeField_lt {position : Position} (hp : position ≠ .quoted) (row : List String)
    {field : String} (h : ¬ IsKept field) (rest : List Char) :
    returns (readRowsFrom position [] row (writeField field ++ rest)) <
      field.toList.count '\r' + rest.count '\r' + rowReturns row := by
  obtain ⟨hreturn, hplain⟩ := Classical.not_imp.1 h
  have hwrite : writeField field = field.toList := by rw [writeField_eq, if_neg hplain]
  have htext : ∀ c ∈ field.toList, needsQuotes c = false := fun c hc => by
    simpa using List.any_eq_false.1 (Bool.not_eq_true _ ▸ hplain) c hc
  have hlt := returns_readRowsFrom_lt hp [] row htext hreturn rest
  rw [hwrite]
  simpa using hlt

theorem returns_writeRow_lt (position : Position) (hp : position.opensQuotes = true)
    (row : List String) {fields : List String} (h : ∃ f ∈ fields, ¬ IsKept f) (rest : List Char) :
    returns (readRowsFrom position [] row (writeRow fields ++ '\n' :: rest)) <
      rowReturns fields + rest.count '\r' + rowReturns row := by
  induction fields generalizing position row with
  | nil => simp at h
  | cons f fs ih =>
    by_cases hf : IsKept f
    · obtain ⟨g, hg, hkept⟩ := h
      have hfs : ∃ f ∈ fs, ¬ IsKept f :=
        ⟨g, (List.mem_cons.1 hg).resolve_left fun heq => hkept (heq ▸ hf), hkept⟩
      obtain ⟨next, hnext⟩ := (spellsField_writeField hf).exists_reads hp
      cases fs with
      | nil => simp at hfs
      | cons g fs =>
        rw [writeRow_cons_cons, List.append_assoc, hnext.read, List.cons_append,
          readRowsFrom_comma hnext.outside]
        have hrest := ih .fieldStart rfl (f :: row) hfs
        simp at hrest ⊢
        omega
    · obtain ⟨tail, htail, hcount⟩ := exists_writeRow_cons f fs
      have hlt := returns_writeField_lt (ne_quoted_of_opensQuotes hp) row hf (tail ++ '\n' :: rest)
      rw [htail, List.append_assoc, rowReturns_cons, ← hcount]
      simp at hlt
      omega

theorem count_write (rows : List (List String)) :
    (rows.flatMap fun row => writeRow row ++ ['\n']).count '\r' = returns rows := by
  induction rows with
  | nil => rfl
  | cons row rows ih =>
    rw [List.flatMap_cons, List.count_append, ih, returns_cons, List.count_append, count_writeRow]
    rfl

/-- Where a field is not kept, fewer carriage returns are read than were written. -/
theorem returns_write_lt {rows : List (List String)} (hlen : ∀ row ∈ rows, 2 ≤ row.length)
    (h : ∃ row ∈ rows, ∃ f ∈ row, ¬ IsKept f) :
    returns (readRowsFrom .lineStart [] [] (rows.flatMap fun row => writeRow row ++ ['\n'])) <
      returns rows := by
  induction rows with
  | nil => simp at h
  | cons row rows ih =>
    obtain ⟨hrow, hrows⟩ := List.forall_mem_cons.1 hlen
    rw [List.flatMap_cons, List.append_assoc, List.singleton_append, returns_cons]
    by_cases hkept : ∀ f ∈ row, IsKept f
    · have hrest : ∃ row ∈ rows, ∃ f ∈ row, ¬ IsKept f := by
        obtain ⟨other, hother, f, hf, hlost⟩ := h
        refine ⟨other, (List.mem_cons.1 hother).resolve_left ?_, f, hf, hlost⟩
        rintro rfl
        exact hlost (hkept f hf)
      rw [readRowsFrom_lineStart hrow hkept, returns_cons]
      exact Nat.add_lt_add_left (ih hrows hrest) _
    · have hlost : ∃ f ∈ row, ¬ IsKept f := by simpa using hkept
      have hlt := returns_writeRow_lt .lineStart rfl [] hlost
        (rows.flatMap fun row => writeRow row ++ ['\n'])
      rw [count_write, rowReturns_nil] at hlt
      omega

end Reckoner.Storage
