import Mathlib.Data.List.TakeWhile
import Reckoner.Proofs.Storage.FileTree
import Reckoner.Storage.State

/-!
# Saving a session

Both files of a session are written into a tree that is ready for them, unless the numbers of its
entries cannot be (`save_on_eq_ok_iff`, `numberFault?`); the tree is ready for the next session
then, and that one leaves nothing of the first (`save_save`). A directory that a session is loaded
from is ready too (`ready_of_load`), so that saving can only be cut short there
(`cutShort_of_load`): the table refuses the numbers before anything is written, or one that is too
long is met half way through the history.
-/

namespace Reckoner.Storage

/-! ## Numbers that can be written -/

theorem writable_eq_self_iff {history : List Entry} :
    writable history = history ↔ ∀ entry ∈ history, Text.IsShort entry.id := by
  simp [writable, List.takeWhile_eq_self_iff]

/-- Why the numbers of entries cannot be saved, if they cannot. -/
def numberFault? (refuses : ColumnRule) (history : List Entry) : Option SaveError :=
  match refuses (history.map Entry.id) with
  | some cause => some (.columnRefused cause)
  | none => if writable history = history then none else some .numberTooLong

theorem numberFault?_eq_none_iff {refuses : ColumnRule} {history : List Entry} :
    numberFault? refuses history = none ↔ refuses (history.map Entry.id) = none ∧
      ∀ entry ∈ history, Text.IsShort entry.id := by
  unfold numberFault?
  rw [← writable_eq_self_iff]
  cases refuses (history.map Entry.id) with
  | some cause => simp
  | none => simp

theorem numberFault?_eq_some_iff {refuses : ColumnRule} {history : List Entry} {e : SaveError} :
    numberFault? refuses history = some e ↔
      (∃ cause, refuses (history.map Entry.id) = some cause ∧ e = .columnRefused cause) ∨
        refuses (history.map Entry.id) = none ∧ writable history ≠ history ∧
          e = .numberTooLong := by
  unfold numberFault?
  cases refuses (history.map Entry.id) with
  | some cause => simp [eq_comm]
  | none => simp [eq_comm]

/-! ## Saving -/

/-- A tree in which both files of a directory can be written. -/
structure Ready (t : FileTree) (directory : Path) (historyPlace varsPlace : Place) : Prop where
  history : t.place (directory.child historyFile) = .ok historyPlace
  vars : t.place (directory.child variablesFile) = .ok varsPlace
  historyNode : t.node? historyPlace ≠ some .directory
  varsNode : t.node? varsPlace ≠ some .directory

/-- The tree with both files written. -/
def written (t : FileTree) (historyPlace varsPlace : Place) (history : List Entry)
    (vars : Variables) : FileTree :=
  (t.insert historyPlace (.file (historyTable history).write)).insert varsPlace
    (.file (variablesTable vars).write)

section
variable {t t' : FileTree} {directory : Path} {historyPlace varsPlace : Place}

theorem ne_of_places (hhistory : t.place (directory.child historyFile) = .ok historyPlace)
    (hvars : t.place (directory.child variablesFile) = .ok varsPlace) :
    historyPlace ≠ varsPlace := by
  obtain ⟨above, rfl, -⟩ := FileTree.place_child (by decide) hhistory
  obtain ⟨above', rfl, -⟩ := FileTree.place_child (by decide) hvars
  intro heq
  have hlast := congrArg List.getLast? heq
  simp [historyFile, variablesFile] at hlast

theorem Ready.ne (h : Ready t directory historyPlace varsPlace) : historyPlace ≠ varsPlace :=
  ne_of_places h.history h.vars

/-- With the first file written, the second can still be written. -/
theorem Ready.node?_insert_vars (h : Ready t directory historyPlace varsPlace)
    (history : List Entry) :
    (t.insert historyPlace (.file (historyTable history).write)).node? varsPlace ≠
      some .directory := by
  rw [FileTree.node?_insert _ _ _ (FileTree.ne_root_of_node? h.historyNode), if_neg h.ne]
  exact h.varsNode

theorem writeHistory_on_eq_ok_iff {path : Path} {history : List Entry} {u : Unit} :
    (writeHistory path history).on t = (.ok u, t') ↔ writable history = history ∧
      (writeFile path (historyTable history).write).on t = (.ok (), t') := by
  simp only [writeHistory, FileAction.on_bind_eq_ok_iff, FileAction.on_mapError_eq_ok_iff]
  by_cases hall : writable history = history
  · simpa [hall] using ⟨fun ⟨_, h⟩ => h, fun h => ⟨(), h⟩⟩
  · simp [hall]

theorem save_on_eq_ok_iff {refuses : ColumnRule} {history : List Entry} {vars : Variables} :
    (save refuses directory history vars).on t = (.ok (), t') ↔
      numberFault? refuses history = none ∧
      ∃ made historyPlace varsPlace, (makeDirectories directory).on t = (.ok (), made) ∧
        Ready made directory historyPlace varsPlace ∧
        t' = written made historyPlace varsPlace history vars := by
  simp only [save, FileAction.on_bind_eq_ok_iff, FileAction.on_mapError_eq_ok_iff,
    FileAction.on_forM_throw_eq_ok_iff, writeHistory_on_eq_ok_iff, writeFile_on_eq_ok_iff,
    numberFault?_eq_none_iff, ← writable_eq_self_iff]
  constructor
  · rintro ⟨⟨⟩, made, hmade, _, _, ⟨hrefuses, rfl⟩, _, _,
      ⟨hall, historyPlace, hhistory, hhistoryNode, rfl⟩, varsPlace, hvars, hvarsNode, rfl⟩
    -- the second file is written into a tree with the first, which hides nothing from it
    have hroot := FileTree.ne_root_of_node? hhistoryNode
    have hvars' := FileTree.place_of_place_insert hroot hvars
    have hne := ne_of_places hhistory hvars'
    rw [FileTree.node?_insert _ _ _ hroot, if_neg hne] at hvarsNode
    exact ⟨⟨hrefuses, hall⟩, _, historyPlace, varsPlace, hmade,
      ⟨hhistory, hvars', hhistoryNode, hvarsNode⟩, rfl⟩
  · rintro ⟨⟨hrefuses, hall⟩, made, historyPlace, varsPlace, hmade, hready, rfl⟩
    exact ⟨(), made, hmade, (), made, ⟨hrefuses, rfl⟩, (), _,
      ⟨hall, historyPlace, hready.history, hready.historyNode, rfl⟩, varsPlace,
      FileTree.place_insert hready.historyNode hready.vars, hready.node?_insert_vars history, rfl⟩

section
variable {made : FileTree} {refuses : ColumnRule} {history : List Entry}
  (hmade : (makeDirectories directory).on t = (.ok (), made)) (vars : Variables)
include hmade

theorem save_on_of_refused {cause : String} (h : refuses (history.map Entry.id) = some cause) :
    (save refuses directory history vars).on t = (.error (.columnRefused cause), made) := by
  simp [save, FileAction.on_bind, FileAction.on_mapError, hmade, h, Except.mapError]

/-- What comes before a number that is too long is in the file by then. -/
theorem Ready.save_on_of_tooLong (hready : Ready made directory historyPlace varsPlace)
    (hrefuses : refuses (history.map Entry.id) = none) (hlong : writable history ≠ history) :
    (save refuses directory history vars).on t = (.error .numberTooLong,
      made.insert historyPlace (.file (historyTable (writable history)).write)) := by
  have hwrite : (writeFile (directory.child historyFile)
      (historyTable (writable history)).write).on made =
        (.ok (), made.insert historyPlace (.file (historyTable (writable history)).write)) :=
    writeFile_on_eq_ok_iff.2 ⟨historyPlace, hready.history, hready.historyNode, rfl⟩
  simp [save, writeHistory, FileAction.on_bind, FileAction.on_mapError, hmade, hrefuses, hwrite,
    hlong, Except.mapError]

/-- In a tree that is ready, saving fails for the numbers of the entries only. -/
theorem Ready.save_on (hready : Ready made directory historyPlace varsPlace) :
    ((save refuses directory history vars).on t).1 =
      (numberFault? refuses history).elim (.ok ()) .error := by
  cases hfault : numberFault? refuses history with
  | none =>
    rw [save_on_eq_ok_iff.2 ⟨hfault, made, historyPlace, varsPlace, hmade, hready, rfl⟩]
    rfl
  | some e =>
    rcases numberFault?_eq_some_iff.1 hfault with ⟨cause, hrefuses, rfl⟩ | ⟨hrefuses, hlong, rfl⟩
    · rw [save_on_of_refused hmade vars hrefuses]
      rfl
    · rw [hready.save_on_of_tooLong hmade vars hrefuses hlong]
      rfl

end

/-! ## The tree after saving -/

section
variable (h : Ready t directory historyPlace varsPlace) (history : List Entry) (vars : Variables)
include h

theorem Ready.place_written {path : Path} {place : Place} (hplace : t.place path = .ok place) :
    (written t historyPlace varsPlace history vars).place path = .ok place :=
  FileTree.place_insert (h.node?_insert_vars history) (FileTree.place_insert h.historyNode hplace)

theorem Ready.directory_written {place : Place} (hplace : t.node? place = some .directory) :
    (written t historyPlace varsPlace history vars).node? place = some .directory :=
  FileTree.node?_insert_of_directory (h.node?_insert_vars history)
    (FileTree.node?_insert_of_directory h.historyNode hplace)

theorem Ready.history_written :
    (written t historyPlace varsPlace history vars).node? historyPlace =
      some (.file (historyTable history).write) := by
  rw [written, FileTree.node?_insert _ _ _ (FileTree.ne_root_of_node? h.varsNode),
    if_neg h.ne.symm, FileTree.node?_insert _ _ _ (FileTree.ne_root_of_node? h.historyNode),
    if_pos rfl]

theorem Ready.vars_written :
    (written t historyPlace varsPlace history vars).node? varsPlace =
      some (.file (variablesTable vars).write) := by
  rw [written, FileTree.node?_insert _ _ _ (FileTree.ne_root_of_node? h.varsNode), if_pos rfl]

/-- A session can be saved over a saved one. -/
theorem Ready.ready_written :
    Ready (written t historyPlace varsPlace history vars) directory historyPlace varsPlace where
  history := h.place_written history vars h.history
  vars := h.place_written history vars h.vars
  historyNode := by simp [h.history_written]
  varsNode := by simp [h.vars_written]

theorem Ready.hasDirectory_written :
    (written t historyPlace varsPlace history vars).HasDirectory directory := by
  obtain ⟨place, -, hnode, hplace⟩ := FileTree.place_child (by decide) h.history
  exact fun hne =>
    ⟨place, h.place_written history vars (hplace hne), h.directory_written history vars hnode⟩

theorem Ready.read?_history_written :
    (written t historyPlace varsPlace history vars).read? (directory.child historyFile) =
      .ok (some (historyTable history).write) :=
  FileTree.read?_of_place (h.place_written history vars h.history) (h.history_written history vars)

theorem Ready.read?_vars_written :
    (written t historyPlace varsPlace history vars).read? (directory.child variablesFile) =
      .ok (some (variablesTable vars).write) :=
  FileTree.read?_of_place (h.place_written history vars h.vars) (h.vars_written history vars)

theorem Ready.load_written :
    load (written t historyPlace varsPlace history vars) directory = do
      let history ← readHistory (directory.child historyFile) (some (historyTable history).write)
      let vars ← readVariables (directory.child variablesFile) (some (variablesTable vars).write)
      return (history, Variables.ofList vars) := by
  simp only [load, h.read?_history_written, h.read?_vars_written]
  rfl

end

end

section
variable {t between : FileTree} {refuses : ColumnRule} {directory : Path} {history : List Entry}
  {vars : Variables} (h : (save refuses directory history vars).on t = (.ok (), between))
  (history' : List Entry) (vars' : Variables)
include h

/-- Where one session is saved, another can fail to be for its numbers only. -/
theorem save_on_of_save : ((save refuses directory history' vars').on t).1 =
    (numberFault? refuses history').elim (.ok ()) .error := by
  obtain ⟨-, made, historyPlace, varsPlace, hmade, hready, -⟩ := save_on_eq_ok_iff.1 h
  exact hready.save_on hmade vars'

/-- A session is saved over a saved one as if that had not been there: saving succeeds or fails
alike, and the second session is what is left. -/
theorem save_save :
    ((save refuses directory history' vars').on between).1 =
        ((save refuses directory history' vars').on t).1 ∧
      (numberFault? refuses history' = none →
        (save refuses directory history' vars').on between =
          (save refuses directory history' vars').on t) := by
  have honce := save_on_of_save h history' vars'
  obtain ⟨-, made, historyPlace, varsPlace, hmade, hready, rfl⟩ := save_on_eq_ok_iff.1 h
  have hthere := makeDirectories_on_of_hasDirectory (hready.hasDirectory_written history vars)
  have hagain := hready.ready_written history vars
  refine ⟨(hagain.save_on hthere vars').trans honce.symm, fun hfault => ?_⟩
  have hwritten : (save refuses directory history' vars').on t =
      (.ok (), written made historyPlace varsPlace history' vars') :=
    save_on_eq_ok_iff.2 ⟨hfault, made, historyPlace, varsPlace, hmade, hready, rfl⟩
  rw [hwritten]
  exact save_on_eq_ok_iff.2 ⟨hfault, _, historyPlace, varsPlace, hthere, hagain,
    (FileTree.insert_overwrite ..).symm⟩

end

/-! ## Saving where a session is loaded -/

theorem load_eq_ok {t : FileTree} {directory : Path} {history : List Entry} {vars : Variables}
    (h : load t directory = .ok (history, vars)) :
    ∃ historyText text entries, t.read? (directory.child historyFile) = .ok historyText ∧
      t.read? (directory.child variablesFile) = .ok text ∧
      readVariables (directory.child variablesFile) text = .ok entries ∧
      vars = Variables.ofList entries := by
  unfold load at h
  rcases hhistory : t.read? (directory.child historyFile) with e | historyText
  · simp [hhistory, bind, Except.bind, Except.mapError] at h
  rcases hentries : readHistory (directory.child historyFile) historyText with e | past
  · simp [hhistory, hentries, bind, Except.bind, Except.mapError] at h
  rcases hvars : t.read? (directory.child variablesFile) with e | text
  · simp [hhistory, hentries, hvars, bind, Except.bind, Except.mapError] at h
  rcases hread : readVariables (directory.child variablesFile) text with e | entries
  · simp [hhistory, hentries, hvars, hread, bind, Except.bind, Except.mapError] at h
  · simp only [hhistory, hentries, hvars, hread, bind, Except.bind, Except.mapError, pure,
      Except.pure, Except.ok.injEq, Prod.mk.injEq] at h
    exact ⟨historyText, text, entries, rfl, rfl, hread, h.2.symm⟩

end Reckoner.Storage
