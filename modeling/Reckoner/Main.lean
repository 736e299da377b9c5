import Reckoner.CommandLine.Run

/-!
# The program

What is printed, what is written and how it ends is decided by `CommandLine.runWords`. Here the disk
is read into a file tree before that, and brought up to the tree that is left after it.
-/

namespace Reckoner.Main

open CommandLine Storage

/-! ## The disk -/

def textOf (place : Place) : String := "/" ++ "/".intercalate place

/-- What stands at a place of the disk. -/
def nodeAt? (place : Place) : IO (Option Node) := do
  try
    discard <| IO.FS.Handle.mk (textOf place ++ "/.") .read
    return some .directory
  catch
    | .noFileOrDirectory .. => return none
    -- nothing stands at a place with a name that is too long
    | .invalidArgument .. => return none
    | .inappropriateType .. =>
      try
        return some (.file (← IO.FS.readFile (textOf place)))
      catch
        -- the place is inside a file
        | .inappropriateType .. => return none
        | e => throw e
    | e => throw e

/-- The tree with what stands at a place of the disk. -/
def look (t : FileTree) (place : Place) : IO FileTree := do
  return (← nodeAt? place).elim t (t.insert place)

/-- The part of the disk that a session in a directory has to do with: what the paths to its files
lead through, and the files. -/
def lookAround (current : Place) (directory : Path) : IO FileTree := do
  let enter (place : Place) (name : String) :=
    if name = ".." then place.dropLast else place ++ [name]
  let start := if directory.slashes = 0 then current else []
  let named := (List.range (directory.names.length + 1)).map fun n =>
    (directory.names.take n).foldl enter start
  let above := (List.range (current.length + 1)).map current.take
  let target := directory.names.foldl enter start
  let files := [historyFile, variablesFile].map fun name => target ++ [name]
  (above ++ named ++ files).foldlM look { current }

/-- Makes the directories and writes the files that differ between two trees. What is inside a
directory comes after it. -/
def bringUp (before after : FileTree) : IO Unit :=
  after.nodes.toList.forM fun (place, node) =>
    if before.node? place = some node then pure ()
    else match node with
      | .directory => IO.FS.createDir (textOf place)
      | .file text => IO.FS.writeFile (textOf place) text

/-! ## Printing -/

/-- Times a performance test that has been found to succeed. -/
def measure (vars : Variables) (rounds : Nat) : IO String := do
  let start ← IO.monoNanosNow
  for _ in [0:rounds] do
    discard <| IO.lazyPure fun _ => Benchmark.round vars Benchmark.expressions
  let finish ← IO.monoNanosNow
  return Benchmark.timeText (finish - start) (rounds * Benchmark.expressions.length)

def printOutput (rounds : Nat) (piece : Session.Output) : IO Unit := do
  match piece with
  | .reply .timing => IO.print (piece.render (← measure ∅ rounds))
  | _ => IO.print (piece.render "")

/-! ## Runs -/

/-- The rounds of a test that a run reports on. -/
def roundsOf (words : List String) : Nat :=
  match Arguments.read words with
  | .ok args =>
    if args.benchmark then (Benchmark.rounds args.iterations).toNat
    else Benchmark.defaultIterations
  | .error _ => Benchmark.defaultIterations

/-- The directory of the session, where a run keeps it in one. -/
def keptIn? (words : List String) (home : String) : Option Path := do
  let args ← (Arguments.read words).toOption
  guard (args.persist && !args.benchmark && !args.rpn)
  (stateDirectory args home).toOption

/-- Runs the words on ever more of the input, as long as the run comes to the end of what there is
of it: the line end printed last is not due before there is no more. `printed` pieces of what a run
prints have been printed before. -/
partial def converse (words : List String) (w : World) (printed : Nat) : IO Outcome := do
  let outcome := runWords words w
  let waits := outcome.output.getLast? = some .lineEnd
  let shown := if waits then outcome.output.dropLast else outcome.output
  (shown.drop printed).forM (printOutput (roundsOf words))
  (← IO.getStdout).flush
  if ¬ waits then return outcome
  let line ← (← IO.getStdin).getLine
  if line.isEmpty then
    IO.print (Session.Output.lineEnd.render "")
    return outcome
  converse words { w with input := w.input ++ line } shown.length

end Reckoner.Main

open Reckoner CommandLine in
def main (words : List String) : IO UInt32 := do
  let home := (← IO.getEnv "HOME").getD ""
  let current := (Storage.Path.ofString (← IO.currentDir).toString).names
  let files ← (Main.keptIn? words home).elim (pure {}) (Main.lookAround current)
  let outcome ← Main.converse words { home, files, input := "" } 0
  Main.bringUp files outcome.files
  match outcome.ending with
  | .done => return 0
  | .misuse =>
    IO.eprintln usage
    return 2
  | .failed e =>
    IO.eprintln e.message
    return 1
