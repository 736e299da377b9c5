import Mathlib.Tactic
import Reckoner.Storage.FileTree

/-!
# Trees after an action

Paths lead through directories only, so they lead to the same places as long as no directory is lost
(`place_of_directories`), and writing a file loses none (`place_insert`). What is in a directory is
reached through it (`place_child`), and a file that can be read there can be written
(`FileTree.place_child_of_read?`); making a directory that is there does nothing
(`makeDirectories_on_of_hasDirectory`).
-/

namespace Reckoner.Storage

/-! ## What an action does -/

namespace FileAction

variable {ε ε' α β : Type}

theorem on_bind (action : FileAction ε α) (next : α → FileAction ε β) (t : FileTree) :
    (action >>= next).on t = match action.on t with
      | (.ok x, t') => (next x).on t'
      | (.error e, t') => (.error e, t') := by
  simp only [on, bind, ExceptT.bind, ExceptT.mk, StateT.bind, ExceptT.run, StateT.run, Id.run]
  rcases action t with ⟨_ | _, t'⟩ <;> rfl

theorem on_bind_eq_ok_iff {action : FileAction ε α} {next : α → FileAction ε β} {t t' : FileTree}
    {y : β} : (action >>= next).on t = (.ok y, t') ↔
      ∃ x between, action.on t = (.ok x, between) ∧ (next x).on between = (.ok y, t') := by
  rw [on_bind]
  rcases action.on t with ⟨_ | x, between⟩ <;> simp

@[simp] theorem on_pure (x : α) (t : FileTree) : (pure x : FileAction ε α).on t = (.ok x, t) := rfl

@[simp] theorem on_throw (e : ε) (t : FileTree) :
    (throw e : FileAction ε α).on t = (.error e, t) := rfl

@[simp] theorem on_get (t : FileTree) : (get : FileAction ε FileTree).on t = (.ok t, t) := rfl

@[simp] theorem on_set (t' t : FileTree) : (set t' : FileAction ε Unit).on t = (.ok (), t') := rfl

@[simp] theorem on_ofExcept (result : Except ε α) (t : FileTree) :
    (MonadExcept.ofExcept result : FileAction ε α).on t = (result, t) := by
  cases result <;> rfl

/-- Only the reason of a failure changes. -/
theorem on_mapError (f : ε → ε') (action : FileAction ε α) (t : FileTree) :
    (action.mapError f).on t = ((action.on t).1.mapError f, (action.on t).2) :=
  rfl

theorem on_mapError_eq_ok_iff {f : ε → ε'} {action : FileAction ε α} {t t' : FileTree} {x : α} :
    (action.mapError f).on t = (.ok x, t') ↔ action.on t = (.ok x, t') := by
  rw [on_mapError]
  rcases action.on t with ⟨_ | y, between⟩ <;> simp [Except.mapError]

@[simp] theorem on_forM_throw (cause : Option β) (f : β → ε) (t : FileTree) :
    FileAction.on (cause.forM fun b => (throw (f b) : FileAction ε PUnit)) t =
      (cause.elim (.ok ⟨⟩) fun b => .error (f b), t) := by
  cases cause <;> rfl

theorem on_forM_throw_eq_ok_iff {cause : Option β} {f : β → ε} {t t' : FileTree} {u : PUnit} :
    FileAction.on (cause.forM fun b => (throw (f b) : FileAction ε PUnit)) t = (.ok u, t') ↔
      cause = none ∧ t' = t := by
  cases cause <;> simp [eq_comm]

end FileAction

theorem writeFile_on (path : Path) (text : String) (t : FileTree) :
    (writeFile path text).on t = match t.place path with
      | .error e => (.error e, t)
      | .ok place =>
        if t.node? place = some .directory then (.error (.isDirectory path), t)
        else (.ok (), t.insert place (.file text)) := by
  simp only [writeFile, FileAction.on_bind, FileAction.on_get, FileAction.on_ofExcept]
  cases t.place path with
  | error e => rfl
  | ok place =>
    dsimp only
    split <;> rfl

theorem writeFile_on_eq_ok_iff {path : Path} {text : String} {t t' : FileTree} {u : Unit} :
    (writeFile path text).on t = (.ok u, t') ↔ ∃ place, t.place path = .ok place ∧
      t.node? place ≠ some .directory ∧ t' = t.insert place (.file text) := by
  rw [writeFile_on]
  cases t.place path with
  | error e => simp
  | ok place =>
    dsimp only
    split <;> simp_all [eq_comm]

theorem makeDirectory_on (path : Path) (t : FileTree) :
    (makeDirectory path).on t = match t.place path with
      | .error e => (.error e, t)
      | .ok place => match t.node? place with
        | none => (.ok (), t.insert place .directory)
        | some .directory => (.ok (), t)
        | some (.file _) => (.error (.occupied path), t) := by
  simp only [makeDirectory, FileAction.on_bind, FileAction.on_get, FileAction.on_ofExcept]
  cases t.place path with
  | error e => rfl
  | ok place =>
    dsimp only
    split <;> simp_all

/-! ## Where paths lead -/

theorem Path.text_child {path : Path} (h : path.names ≠ []) (name : String) :
    (path.child name).text = path.text ++ "/" ++ name := by
  simp [Path.text, Path.child, h, String.append_assoc, String.intercalate_append_of_ne_nil]

namespace FileTree

variable {t : FileTree}

theorem foldlM_cons_eq_ok_iff {path : Path} {name : String} {names : List String}
    {start place : Place} :
    (name :: names).foldlM (t.enter path) start = .ok place ↔
      ∃ next, t.enter path start name = .ok next ∧
        names.foldlM (t.enter path) next = .ok place := by
  rw [List.foldlM_cons]
  cases t.enter path start name <;> simp [bind, Except.bind]

theorem foldlM_append_eq_ok_iff {path : Path} {above below : List String} {start place : Place} :
    (above ++ below).foldlM (t.enter path) start = .ok place ↔
      ∃ next, above.foldlM (t.enter path) start = .ok next ∧
        below.foldlM (t.enter path) next = .ok place := by
  rw [List.foldlM_append]
  cases above.foldlM (t.enter path) start <;> simp [bind, Except.bind]

theorem enter_eq_ok_iff {path : Path} {place target : Place} {name : String} :
    t.enter path place name = .ok target ↔ t.node? place = some .directory ∧
      (name = ".." ∧ target = place.dropLast ∨
        name ≠ ".." ∧ name.utf8ByteSize ≤ maxNameBytes ∧ target = place ++ [name]) := by
  unfold enter
  cases t.node? place with
  | none => simp
  | some node =>
    cases node with
    | file text => simp
    | directory =>
      by_cases hup : name = ".."
      · simp [hup, eq_comm]
      · by_cases hlong : maxNameBytes < name.utf8ByteSize
        · simp [hup, hlong]
        · simp [hup, hlong, eq_comm]
          omega

theorem enter_congr {path : Path} (other : Path) {place target : Place} {name : String}
    (h : t.enter path place name = .ok target) : t.enter other place name = .ok target :=
  enter_eq_ok_iff.2 (enter_eq_ok_iff.1 h)

/-- Only an error depends on the whole path. -/
theorem foldlM_enter_congr {path : Path} (other : Path) {names : List String}
    {start place : Place} (h : names.foldlM (t.enter path) start = .ok place) :
    names.foldlM (t.enter other) start = .ok place := by
  induction names generalizing start with
  | nil => exact h
  | cons name names ih =>
    obtain ⟨next, hnext, hrest⟩ := foldlM_cons_eq_ok_iff.1 h
    exact foldlM_cons_eq_ok_iff.2 ⟨next, enter_congr other hnext, ih hrest⟩

theorem place_eq_ok_iff {path : Path} {place : Place} :
    t.place path = .ok place ↔ '\x00' ∉ path.text.toList ∧
      path.text.utf8ByteSize ≤ maxPathBytes ∧
      path.names.foldlM (t.enter path) (if path.slashes = 0 then t.current else []) =
        .ok place := by
  unfold FileTree.place
  by_cases hnull : '\x00' ∈ path.text.toList
  · simp [hnull]
  · by_cases hlong : maxPathBytes < path.text.utf8ByteSize
    · simp [hnull, hlong]
    · simp [hnull, hlong]
      omega

/-- A path leads to the same place in a tree with more directories. -/
theorem place_of_directories (t t' : FileTree) (hcurrent : t'.current = t.current)
    (hdirs : ∀ place, t.node? place = some .directory → t'.node? place = some .directory)
    {path : Path} {place : Place} (h : t.place path = .ok place) : t'.place path = .ok place := by
  have hfold : ∀ {names : List String} {start : Place},
      names.foldlM (t.enter path) start = .ok place →
        names.foldlM (t'.enter path) start = .ok place := by
    intro names
    induction names with
    | nil => exact fun h => h
    | cons name names ih =>
      intro start h
      obtain ⟨next, hnext, hrest⟩ := foldlM_cons_eq_ok_iff.1 h
      obtain ⟨hdir, htarget⟩ := enter_eq_ok_iff.1 hnext
      exact foldlM_cons_eq_ok_iff.2
        ⟨next, enter_eq_ok_iff.2 ⟨hdirs start hdir, htarget⟩, ih hrest⟩
  obtain ⟨hnull, hlong, hnames⟩ := place_eq_ok_iff.1 h
  exact place_eq_ok_iff.2 ⟨hnull, hlong, hcurrent ▸ hfold hnames⟩

section
variable {spot : Place} {node : Node}

theorem ne_root_of_node? (hspot : t.node? spot ≠ some .directory) : spot ≠ [] := by
  rintro rfl
  exact hspot rfl

/-- No directory is lost where something else is replaced. -/
theorem node?_insert_of_directory (hspot : t.node? spot ≠ some .directory) {place : Place}
    (h : t.node? place = some .directory) : (t.insert spot node).node? place = some .directory := by
  rw [node?_insert t place node (ne_root_of_node? hspot), if_neg, h]
  rintro rfl
  exact hspot h

theorem place_insert (hspot : t.node? spot ≠ some .directory) {path : Path} {place : Place}
    (h : t.place path = .ok place) : (t.insert spot node).place path = .ok place :=
  place_of_directories t (t.insert spot node) rfl (fun _ => node?_insert_of_directory hspot) h

/-- A file leads nowhere. -/
theorem place_of_place_insert (hspot : spot ≠ []) {text : String} {path : Path} {place : Place}
    (h : (t.insert spot (.file text)).place path = .ok place) : t.place path = .ok place := by
  refine place_of_directories (t.insert spot (.file text)) t rfl (fun other hdir => ?_) h
  rw [node?_insert t other _ hspot] at hdir
  split at hdir
  · cases hdir
  · exact hdir

end

/-- What is in a directory is reached through the directory. -/
theorem place_child {path : Path} {name : String} (hname : name ≠ "..") {place : Place}
    (h : t.place (path.child name) = .ok place) :
    ∃ dir, place = dir ++ [name] ∧ t.node? dir = some .directory ∧
      (path.names ≠ [] → t.place path = .ok dir) := by
  obtain ⟨hnull, hlong, hnames⟩ := place_eq_ok_iff.1 h
  obtain ⟨dir, hdir, hlast⟩ := foldlM_append_eq_ok_iff.1 hnames
  obtain ⟨target, htarget, hend⟩ := foldlM_cons_eq_ok_iff.1 hlast
  obtain rfl : target = place := by simpa [pure, Except.pure] using hend
  obtain ⟨hnode, ⟨hup, -⟩ | ⟨-, -, rfl⟩⟩ := enter_eq_ok_iff.1 htarget
  · exact absurd hup hname
  · refine ⟨dir, rfl, hnode, fun hne => ?_⟩
    rw [Path.text_child hne] at hnull hlong
    refine place_eq_ok_iff.2 ⟨fun hmem => hnull (by simp [hmem]), ?_, foldlM_enter_congr path hdir⟩
    simp only [String.utf8ByteSize_append] at hlong
    omega

theorem read?_of_place {path : Path} {place : Place} {text : String}
    (hplace : t.place path = .ok place) (hnode : t.node? place = some (.file text)) :
    t.read? path = .ok (some text) := by
  simp [read?, find?, hplace, hnode, bind, Except.bind, pure, Except.pure]

theorem place_of_find? {path : Path} {node : Node} (h : t.find? path = .ok (some node)) :
    ∃ place, t.place path = .ok place ∧ t.node? place = some node := by
  unfold find? at h
  cases hplace : t.place path with
  | error e => cases e <;> simp [hplace] at h
  | ok place =>
    rw [hplace] at h
    exact ⟨place, rfl, Except.ok.inj h⟩

theorem find?_of_read? {path : Path} {text : Option String} (h : t.read? path = .ok text) :
    t.find? path = .ok (text.map .file) := by
  unfold read? at h
  rcases hfind : t.find? path with e | _ | _ | shown <;>
    simp only [hfind, bind, Except.bind, pure, Except.pure] at h <;> cases h
  · rfl
  · rfl

theorem place_of_read? {path : Path} {text : String} (h : t.read? path = .ok (some text)) :
    ∃ place, t.place path = .ok place ∧ t.node? place = some (.file text) :=
  place_of_find? (find?_of_read? h)

/-! ## Replacing files -/

theorem insert_overwrite (first second : Place) (a b a' b' : Node) :
    (((t.insert first a).insert second b).insert first a').insert second b' =
      (t.insert first a').insert second b' := by
  simp only [insert, mk.injEq, and_true]
  refine Std.ExtTreeMap.ext_getElem? fun {place} => ?_
  simp only [Std.ExtTreeMap.getElem?_insert]
  split
  · rfl
  · split <;> simp_all

end FileTree

/-! ## Directories that are there -/

/-- Whether a path leads to a directory. One without names starts at a directory. -/
def FileTree.HasDirectory (t : FileTree) (path : Path) : Prop :=
  path.names ≠ [] → ∃ place, t.place path = .ok place ∧ t.node? place = some .directory

theorem makeDirectories_on_of_hasDirectory {t : FileTree} {path : Path}
    (h : t.HasDirectory path) : (makeDirectories path).on t = (.ok (), t) := by
  obtain ⟨slashes, names⟩ := path
  unfold makeDirectories
  cases hrev : names.reverse with
  | nil => rfl
  | cons last above =>
    obtain rfl : names = (last :: above).reverse := by rw [← hrev, List.reverse_reverse]
    obtain ⟨place, hplace, hnode⟩ := h (by simp)
    simp only [makeDirectoriesFrom, FileAction.on_bind, FileAction.on_get, makeDirectory_on,
      hplace, hnode]

end Reckoner.Storage
