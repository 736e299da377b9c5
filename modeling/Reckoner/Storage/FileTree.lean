import Reckoner.Storage.Path
import Reckoner.Text.Quoted
import Std.Data.ExtTreeMap

/-!
# Files and directories

A file tree holds what stands at each place. A path leads from name to name, through directories
only; what it leads to may be missing. Actions on a tree may fail half way, and what they have done
by then stays done.
-/

namespace Reckoner.Storage

inductive Node where
  | directory
  | file (text : String)
  deriving DecidableEq, Repr

/-- The names that lead to a place from the root. -/
abbrev Place := List String

structure FileTree where
  /-- What stands at each place but the root, which is always a directory. -/
  nodes : Std.ExtTreeMap Place Node := ∅
  /-- The directory from which relative paths start. -/
  current : Place := []

inductive FileError where
  | missing (path : Path)
  /-- Something is there that is no directory. -/
  | occupied (path : Path)
  | notDirectory (path : Path)
  | isDirectory (path : Path)
  | nameTooLong (path : Path)
  | nullCharacter
  deriving DecidableEq, Repr

def nullCharacterMessage : String := "embedded null byte"

def FileError.message : FileError → String
  | missing path => withPath "[Errno 2] No such file or directory: " path
  | occupied path => withPath "[Errno 17] File exists: " path
  | notDirectory path => withPath "[Errno 20] Not a directory: " path
  | isDirectory path => withPath "[Errno 21] Is a directory: " path
  | nameTooLong path => withPath "[Errno 36] File name too long: " path
  | nullCharacter => nullCharacterMessage
where
  withPath (cause : String) (path : Path) : String := cause ++ Text.quoted path.text

/-- The most bytes of a name. -/
def maxNameBytes : Nat := 255

/-- The most bytes of a whole path. -/
def maxPathBytes : Nat := 4095

namespace FileTree

def node? (t : FileTree) (place : Place) : Option Node :=
  if place.isEmpty then some .directory else t.nodes[place]?

/-- The place that one more name of a path leads to. There is nothing above the root. -/
def enter (t : FileTree) (path : Path) (place : Place) (name : String) : Except FileError Place :=
  match t.node? place with
  | none => .error (.missing path)
  | some (.file _) => .error (.notDirectory path)
  | some .directory =>
    if name = ".." then .ok place.dropLast
    else if maxNameBytes < name.utf8ByteSize then .error (.nameTooLong path)
    else .ok (place ++ [name])

/-- The place that a path leads to. Nothing needs to be there, but all names before the last have to
lead to directories. -/
def place (t : FileTree) (path : Path) : Except FileError Place :=
  if path.text.toList.contains '\x00' then .error .nullCharacter
  else if maxPathBytes < path.text.utf8ByteSize then .error (.nameTooLong path)
  else path.names.foldlM (t.enter path) (if path.slashes = 0 then t.current else [])

/-- What a path leads to. A path that leads nowhere is no error unless a name is too long. -/
def find? (t : FileTree) (path : Path) : Except FileError (Option Node) :=
  match t.place path with
  | .ok place => .ok (t.node? place)
  | .error (.nameTooLong p) => .error (.nameTooLong p)
  | .error _ => .ok none

/-- The text of a file, if there is one. -/
def read? (t : FileTree) (path : Path) : Except FileError (Option String) := do
  match ← t.find? path with
  | some (.file text) => return some text
  | some .directory => throw (.isDirectory path)
  | none => return none

def insert (t : FileTree) (place : Place) (node : Node) : FileTree :=
  { t with nodes := t.nodes.insert place node }

theorem node?_insert (t : FileTree) {place : Place} (other : Place) (node : Node)
    (h : place ≠ []) :
    (t.insert place node).node? other = if place = other then some node else t.node? other := by
  unfold node? insert
  by_cases root : other = []
  · simp [root, h]
  · simp [root, Std.ExtTreeMap.getElem?_insert]

end FileTree

/-! ## Actions -/

/-- An action on a file tree that may fail for the reasons of a type. -/
abbrev FileAction (ε : Type) := ExceptT ε (StateM FileTree)

/-- What comes of an action, and the tree after it. -/
def FileAction.on {ε α : Type} (action : FileAction ε α) (t : FileTree) : Except ε α × FileTree :=
  Id.run (StateT.run (ExceptT.run action) t)

/-- The same action with its reasons among others. -/
def FileAction.mapError {ε ε' α : Type} (f : ε → ε') (action : FileAction ε α) :
    FileAction ε' α :=
  ExceptT.adapt f action

/-- Writes a file, in place of one that is there. -/
def writeFile (path : Path) (text : String) : FileAction FileError Unit := do
  let t ← get
  let place ← MonadExcept.ofExcept (t.place path)
  if t.node? place = some .directory then throw (.isDirectory path)
  set (t.insert place (.file text))

/-- Makes a directory inside one that is there. Nothing is done where it is there already. -/
def makeDirectory (path : Path) : FileAction FileError Unit := do
  let t ← get
  let place ← MonadExcept.ofExcept (t.place path)
  match t.node? place with
  | none => set (t.insert place .directory)
  | some .directory => pure ()
  | some (.file _) => throw (.occupied path)

/-- Makes a directory and those that are missing above it, the path being given by its names from
the last one back. -/
def makeDirectoriesFrom (slashes : Nat) : List String → FileAction FileError Unit
  | [] => pure ()
  | last :: above => do
    let path : Path := ⟨slashes, (last :: above).reverse⟩
    if let .error (.missing _) := (← get).place path then makeDirectoriesFrom slashes above
    makeDirectory path

/-- Makes a directory and those that are missing above it. -/
def makeDirectories (path : Path) : FileAction FileError Unit :=
  makeDirectoriesFrom path.slashes path.names.reverse

end Reckoner.Storage
