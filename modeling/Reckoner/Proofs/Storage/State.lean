import Reckoner.Proofs.Decimal.Text
import Reckoner.Proofs.Storage.Saving
import Reckoner.Proofs.Storage.Table
import Reckoner.Proofs.Variables

/-!
# A saved session is loaded again

What is loaded is the session saved just if it is storable (`load_save`): every text and name is
kept by a table. The numbers are read back since they could be written, and the values of the
variables whatever they are (`readValue?_valueField`). That a storable session is loaded again
follows from what the tables give back, field by field. That no other one is follows from a count:
reading gives fewer carriage returns than were in the fields written (`returns_write_lt`).
-/

namespace Reckoner.Storage

/-! ## Reading the tables -/

theorem mapM_eq_ok_iff {α β ε : Type} {f : α → Except ε β} {xs : List α} {ys : List β} :
    xs.mapM f = .ok ys ↔ List.Forall₂ (fun x y => f x = .ok y) xs ys := by
  constructor
  · intro h
    induction xs generalizing ys with
    | nil =>
      cases h
      exact .nil
    | cons x xs ih =>
      rw [List.mapM_cons] at h
      cases hx : f x with
      | error e => simp [hx, bind, Except.bind] at h
      | ok y =>
        cases hxs : xs.mapM f with
        | error e => simp [hx, hxs, bind, Except.bind] at h
        | ok rest =>
          obtain rfl : y :: rest = ys := by
            simpa [hx, hxs, bind, Except.bind, pure, Except.pure] using h
          exact .cons hx (ih hxs)
  · intro h
    induction h with
    | nil => rfl
    | cons hx _ ih =>
      rw [List.mapM_cons, hx, ih]
      rfl

theorem mapM_of_forall {α β ε : Type} {f : α → Except ε β} (g : β → α) {ys : List β}
    (h : ∀ y ∈ ys, f (g y) = .ok y) : (ys.map g).mapM f = .ok ys :=
  mapM_eq_ok_iff.2 (List.forall₂_map_left_iff.2 (List.forall₂_same.2 h))

theorem missing_self (columns : List String) (rows : List (List String)) :
    (Table.mk columns rows).missing columns = [] := by
  have hfilter : columns.filter (fun column => !columns.contains column) = [] := by
    simp
  rw [Table.missing, hfilter, List.mergeSort_nil]

/-- The entry in a row of the columns in their usual order. -/
def entryOfRow (row : List String) : Except LoadError Entry :=
  let id := row[0]?.getD ""
  match Text.readInt id.toList with
  | .ok n => .ok ⟨n, row[1]?.getD "", row[2]?.getD ""⟩
  | .error e => .error (.invalidId e id)

theorem readHistory_of_read? {path : Path} {text : String} {rows : List (List String)}
    (h : Table.read? text = some ⟨historyColumns, rows⟩) :
    readHistory path (some text) = rows.mapM entryOfRow := by
  have hid : historyColumns.idxOf? "id" = some 0 := by decide
  have hexpression : historyColumns.idxOf? "expression" = some 1 := by decide
  have hresult : historyColumns.idxOf? "result" = some 2 := by decide
  simp only [readHistory, h, Option.elim_some, bind, Except.bind, missing_self, Table.cell, hid,
    hexpression, hresult, Option.bind_some]
  rfl

/-- The variable in a row of the columns in their usual order. -/
def variableOfRow (row : List String) : Except LoadError (String × Float) :=
  let value := row[1]?.getD ""
  match readValue? value with
  | some x => .ok (row[0]?.getD "", x)
  | none => .error (.invalidValue value)

theorem readVariables_of_read? {path : Path} {text : String} {rows : List (List String)}
    (h : Table.read? text = some ⟨variableColumns, rows⟩) :
    readVariables path (some text) = rows.mapM variableOfRow := by
  have hname : variableColumns.idxOf? "name" = some 0 := by decide
  have hvalue : variableColumns.idxOf? "value" = some 1 := by decide
  simp only [readVariables, h, Option.elim_some, bind, Except.bind, missing_self, Table.cell, hname,
    hvalue, Option.bind_some]
  rfl

theorem isKept_of_hasNoBlank {field : String} (h : Text.HasNoBlank field) : IsKept field :=
  fun hreturn => absurd (h _ hreturn) (by decide)

theorem hasNoBlank_valueField (x : Float) : Text.HasNoBlank (valueField x) := by
  have hmark : Text.HasNoBlank Decimal.Layout.exact.wholeMark := by
    simp [Text.HasNoBlank, Decimal.Layout.exact, Text.isBlank]
  unfold valueField
  split
  · simp [Text.HasNoBlank]
  · exact Decimal.hasNoBlank_text hmark x

theorem readValue?_valueField (x : Float) : readValue? (valueField x) = some x := by
  unfold valueField readValue?
  split
  · rename_i hnan
    rw [if_pos rfl, Double.eq_nan_of_isNaN hnan]
  · rename_i hnan
    have hread := Double.read?_exactText (Bool.not_eq_true _ ▸ hnan)
    have hempty : Double.read? "" = none := by decide +kernel
    rw [if_neg, hread]
    intro heq
    rw [heq, hempty] at hread
    cases hread

/-! ## What is read back -/

/-- A session that is read back as it was saved. -/
structure IsStorable (history : List Entry) (vars : Variables) : Prop where
  texts : ∀ entry ∈ history, IsKept entry.expression ∧ IsKept entry.result
  names : ∀ name ∈ vars, IsKept name

theorem isStorable_iff {history : List Entry} {vars : Variables} :
    IsStorable history vars ↔
      (∀ entry ∈ history, IsKept entry.expression ∧ IsKept entry.result) ∧
        ∀ name ∈ vars.keys, IsKept name := by
  simp only [Std.ExtTreeMap.mem_keys]
  exact ⟨fun h => ⟨h.texts, h.names⟩, fun h => ⟨h.1, h.2⟩⟩

instance (history : List Entry) (vars : Variables) : Decidable (IsStorable history vars) :=
  decidable_of_iff' _ isStorable_iff

theorem head?_write {t : Table} {c : Char} (h : (writeRow t.header).head? = some c)
    (hc : c ≠ '\ufeff') : t.write.toList.head? ≠ some '\ufeff' := by
  rw [Table.write, String.toList_ofList, List.flatMap_cons, List.append_assoc, List.head?_append, h,
    Option.some_or]
  exact fun heq => hc (Option.some.inj heq)

theorem head?_write_historyTable (history : List Entry) :
    (historyTable history).write.toList.head? ≠ some '\ufeff' :=
  have hfirst : (writeRow historyColumns).head? = some 'i' := by decide
  head?_write hfirst (by decide)

theorem head?_write_variablesTable (vars : Variables) :
    (variablesTable vars).write.toList.head? ≠ some '\ufeff' :=
  have hfirst : (writeRow variableColumns).head? = some 'n' := by decide
  head?_write hfirst (by decide)

section
variable {history : List Entry} {vars : Variables} (path : Path)

theorem readHistory_write (hids : ∀ entry ∈ history, Text.IsShort entry.id)
    (htexts : ∀ entry ∈ history, IsKept entry.expression ∧ IsKept entry.result) :
    readHistory path (some (historyTable history).write) = .ok history := by
  have hheader : 2 ≤ historyColumns.length ∧ ∀ f ∈ historyColumns, IsKept f := by decide
  have hkept : ∀ row ∈ (historyTable history).header :: (historyTable history).rows,
      2 ≤ row.length ∧ ∀ f ∈ row, IsKept f := by
    refine List.forall_mem_cons.2 ⟨hheader, fun row hrow => ?_⟩
    obtain ⟨entry, hentry, rfl⟩ := List.mem_map.1 hrow
    have hid := isKept_of_hasNoBlank (Text.hasNoBlank_toString entry.id)
    obtain ⟨hexpression, hresult⟩ := htexts entry hentry
    exact ⟨by simp, by simp only [List.forall_mem_cons]; exact ⟨hid, hexpression, hresult, by simp⟩⟩
  refine (readHistory_of_read?
    (Table.read?_write hkept (head?_write_historyTable history))).trans ?_
  refine mapM_of_forall _ fun entry hentry => ?_
  simp only [entryOfRow]
  rw [List.getElem?_cons_zero, Option.getD_some, Text.readInt_toString (hids entry hentry)]
  rfl

theorem readVariables_write (hnames : ∀ name ∈ vars, IsKept name) :
    readVariables path (some (variablesTable vars).write) = .ok vars.toList := by
  have hheader : 2 ≤ variableColumns.length ∧ ∀ f ∈ variableColumns, IsKept f := by decide
  have hkept : ∀ row ∈ (variablesTable vars).header :: (variablesTable vars).rows,
      2 ≤ row.length ∧ ∀ f ∈ row, IsKept f := by
    refine List.forall_mem_cons.2 ⟨hheader, fun row hrow => ?_⟩
    obtain ⟨⟨name, value⟩, hmem, rfl⟩ := List.mem_map.1 hrow
    have hname : name ∈ vars := by
      rw [Std.ExtTreeMap.mem_iff_isSome_getElem?,
        Std.ExtTreeMap.mem_toList_iff_getElem?_eq_some.1 hmem]
      rfl
    exact ⟨by simp, by
      simp only [List.forall_mem_cons]
      exact ⟨hnames name hname, isKept_of_hasNoBlank (hasNoBlank_valueField value), by simp⟩⟩
  refine (readVariables_of_read?
    (Table.read?_write hkept (head?_write_variablesTable vars))).trans ?_
  refine (mapM_of_forall (fun entry : String × Float => [entry.1, valueField entry.2]) ?_)
  intro entry hentry
  simp only [variableOfRow]
  rw [List.getElem?_cons_succ, List.getElem?_cons_zero, Option.getD_some, readValue?_valueField]
  rfl

end

/-! ## What is lost -/

/-- The carriage returns in the texts of an entry. -/
def entryReturns (entry : Entry) : Nat :=
  entry.expression.toList.count '\r' + entry.result.toList.count '\r'

theorem entryOfRow_eq_ok {row : List String} {entry : Entry} (h : entryOfRow row = .ok entry) :
    entryReturns entry ≤ rowReturns row := by
  unfold entryOfRow at h
  dsimp only at h
  split at h
  · cases h
    match row with
    | [] => simp [entryReturns]
    | [_] => simp [entryReturns]
    | [_, _] => simp [entryReturns]
    | _ :: _ :: _ :: _ => simp [entryReturns]; omega
  · cases h

theorem variableOfRow_eq_ok {row : List String} {entry : String × Float}
    (h : variableOfRow row = .ok entry) : entry.1.toList.count '\r' ≤ rowReturns row := by
  unfold variableOfRow at h
  dsimp only at h
  split at h
  · cases h
    cases row with
    | nil => simp
    | cons name rest => simp
  · cases h

section
variable {α : Type} {f : List String → Except LoadError α} {rows : List (List String)}
  {values : List α}

/-- What each row gives has no more carriage returns than the row. -/
theorem sum_le_of_mapM {g : α → Nat} (hle : ∀ row x, f row = .ok x → g x ≤ rowReturns row)
    (h : rows.mapM f = .ok values) : (values.map g).sum ≤ returns rows := by
  have hrows := mapM_eq_ok_iff.1 h
  clear h
  induction hrows with
  | nil => simp
  | cons hx _ ih =>
    have := hle _ _ hx
    rw [List.map_cons, List.sum_cons, returns_cons]
    omega

end

theorem count_of_hasNoBlank {text : String} (h : Text.HasNoBlank text) :
    text.toList.count '\r' = 0 :=
  List.count_eq_zero.2 fun hreturn => absurd (h _ hreturn) (by decide)

theorem returns_historyTable (history : List Entry) :
    returns (historyTable history).rows = (history.map entryReturns).sum := by
  simp only [historyTable, returns, List.map_map]
  refine congrArg List.sum (List.map_congr_left fun entry _ => ?_)
  have hid := count_of_hasNoBlank (Text.hasNoBlank_toString entry.id)
  simp only [Function.comp_apply, rowReturns_cons, rowReturns_nil, entryReturns, hid]
  omega

theorem readHistory_write_iff {history : List Entry} (path : Path)
    (hids : ∀ entry ∈ history, Text.IsShort entry.id) :
    readHistory path (some (historyTable history).write) = .ok history ↔
      ∀ entry ∈ history, IsKept entry.expression ∧ IsKept entry.result := by
  constructor
  · intro h
    have hheader : 2 ≤ historyColumns.length ∧ ∀ f ∈ historyColumns, IsKept f := by decide
    rw [readHistory_of_read? (Table.read?_write_eq hheader.1 hheader.2
      (head?_write_historyTable history))] at h
    by_contra hlost
    have hfield : ∃ row ∈ (historyTable history).rows, ∃ f ∈ row, ¬ IsKept f := by
      simp only [not_forall] at hlost
      obtain ⟨entry, hentry, hlost⟩ := hlost
      refine ⟨_, List.mem_map_of_mem hentry, ?_⟩
      rcases Decidable.not_and_iff_or_not.1 hlost with hlost | hlost
      · exact ⟨entry.expression, by simp, hlost⟩
      · exact ⟨entry.result, by simp, hlost⟩
    have hlen : ∀ row ∈ (historyTable history).rows, 2 ≤ row.length := by
      intro row hrow
      obtain ⟨entry, -, rfl⟩ := List.mem_map.1 hrow
      simp
    -- a text that is not kept costs a carriage return, and the entries need all of them
    have hlt := returns_write_lt hlen hfield
    rw [returns_historyTable] at hlt
    exact hlt.not_ge (sum_le_of_mapM (fun _ _ hrow => entryOfRow_eq_ok hrow) h)
  · exact readHistory_write path hids

theorem returns_variablesTable (vars : Variables) :
    returns (variablesTable vars).rows =
      (vars.keys.map fun name => name.toList.count '\r').sum := by
  rw [← Std.ExtTreeMap.map_fst_toList_eq_keys, variablesTable, returns, List.map_map, List.map_map]
  refine congrArg List.sum (List.map_congr_left fun entry _ => ?_)
  have hvalue := count_of_hasNoBlank (hasNoBlank_valueField entry.2)
  simp [hvalue]

/-- A table has no more names than the list it was made of. -/
theorem sum_keys_le {g : String → Nat} (entries : List (String × Float)) :
    ((Variables.ofList entries).keys.map g).sum ≤ (entries.map fun entry => g entry.1).sum := by
  have hsubset : (Variables.ofList entries).keys ⊆ entries.map Prod.fst := fun name hname =>
    Variables.mem_ofList_iff.1 (Std.ExtTreeMap.mem_keys.1 hname)
  obtain ⟨names, hperm, hsub⟩ := Std.ExtTreeMap.nodup_keys.subperm hsubset
  have hle := (hsub.map g).sum_le_sum (by simp)
  rwa [(hperm.map g).sum_eq, List.map_map] at hle

theorem readVariables_write_iff {vars : Variables} (path : Path) :
    (∃ entries, readVariables path (some (variablesTable vars).write) = .ok entries ∧
      Variables.ofList entries = vars) ↔ ∀ name ∈ vars, IsKept name := by
  constructor
  · rintro ⟨entries, h, heq⟩
    have hheader : 2 ≤ variableColumns.length ∧ ∀ f ∈ variableColumns, IsKept f := by decide
    rw [readVariables_of_read? (Table.read?_write_eq hheader.1 hheader.2
      (head?_write_variablesTable vars))] at h
    by_contra hlost
    have hfield : ∃ row ∈ (variablesTable vars).rows, ∃ f ∈ row, ¬ IsKept f := by
      simp only [not_forall] at hlost
      obtain ⟨name, hname, hlost⟩ := hlost
      rw [← Std.ExtTreeMap.mem_keys, ← Std.ExtTreeMap.map_fst_toList_eq_keys] at hname
      obtain ⟨entry, hentry, rfl⟩ := List.mem_map.1 hname
      exact ⟨_, List.mem_map_of_mem hentry, entry.1, by simp, hlost⟩
    have hlen : ∀ row ∈ (variablesTable vars).rows, 2 ≤ row.length := by
      intro row hrow
      obtain ⟨entry, -, rfl⟩ := List.mem_map.1 hrow
      simp
    have hlt := returns_write_lt hlen hfield
    have hkeys := sum_keys_le (g := fun name => name.toList.count '\r') entries
    rw [heq] at hkeys
    rw [returns_variablesTable] at hlt
    exact hlt.not_ge (hkeys.trans (sum_le_of_mapM (fun _ _ hrow => variableOfRow_eq_ok hrow) h))
  · exact fun h => ⟨vars.toList, readVariables_write path h, Variables.ofList_toList vars⟩

/-- A written session is loaded again just if it is storable. -/
theorem Ready.load_written_iff {t : FileTree} {directory : Path} {historyPlace varsPlace : Place}
    (h : Ready t directory historyPlace varsPlace) {history : List Entry}
    (hids : ∀ entry ∈ history, Text.IsShort entry.id) (vars : Variables) :
    load (written t historyPlace varsPlace history vars) directory = .ok (history, vars) ↔
      IsStorable history vars := by
  rw [h.load_written]
  constructor
  · intro hload
    cases hhistory : readHistory (directory.child historyFile)
        (some (historyTable history).write) with
    | error e => simp [hhistory, bind, Except.bind] at hload
    | ok readBack =>
      cases hvars : readVariables (directory.child variablesFile)
          (some (variablesTable vars).write) with
      | error e => simp [hhistory, hvars, bind, Except.bind] at hload
      | ok entries =>
        obtain ⟨rfl, heq⟩ : readBack = history ∧ Variables.ofList entries = vars := by
          simpa [hhistory, hvars, bind, Except.bind, pure, Except.pure] using hload
        exact ⟨(readHistory_write_iff _ hids).1 hhistory,
          (readVariables_write_iff _).1 ⟨entries, hvars, heq⟩⟩
  · intro hstorable
    obtain ⟨entries, hvars, heq⟩ := (readVariables_write_iff (directory.child variablesFile)).2
      hstorable.names
    rw [(readHistory_write_iff _ hids).2 hstorable.texts, hvars, ← heq]
    rfl

theorem load_of_save {refuses : ColumnRule} {t after : FileTree} {directory : Path}
    {history : List Entry} {vars : Variables}
    (h : (save refuses directory history vars).on t = (.ok (), after)) :
    load after directory = .ok (history, vars) ↔ IsStorable history vars := by
  obtain ⟨hfault, made, historyPlace, varsPlace, -, hready, rfl⟩ := save_on_eq_ok_iff.1 h
  exact hready.load_written_iff (numberFault?_eq_none_iff.1 hfault).2 vars

/-- A carriage return by itself is written without quotes, and ends a row when it is read. -/
theorem load_save_return :
    let saved := (save (fun _ => none) (.ofString "/state") [⟨4, "a", "b\r7"⟩] ∅).on {}
    saved.1 = .ok () ∧
      (load saved.2 (.ofString "/state")).map Prod.fst = .ok [⟨4, "a", "b"⟩, ⟨7, "", ""⟩] := by
  decide +kernel

-- one digit more than can be written
example :
    let history : List Entry := [⟨1, "2", "2"⟩, ⟨Nat.pow 10 4300, "3", "3"⟩]
    ((save (fun _ => none) (.ofString "/state") history ∅).on {}).1 = .error .numberTooLong := by
  decide +kernel

end Reckoner.Storage
