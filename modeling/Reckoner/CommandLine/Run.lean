import Reckoner.CommandLine.Arguments
import Reckoner.Session.Transcript

/-!
# A run of the program

A run is a function of the arguments, the files and the input: it prints, it leaves files, and it
ends well or with a failure. Only a run that keeps its session touches the files, and it saves the
session also when a line fails. Of two failures the later one, that of saving, is reported.
-/

namespace Reckoner.CommandLine

open Session (Output)

/-- What ends a run early. -/
inductive Failure where
  | benchmark (e : Benchmark.Failure)
  | home (e : Storage.HomeError)
  | load (e : Storage.LoadError)
  | line (e : EvalError)
  | save (e : Storage.SaveError)
  deriving DecidableEq, Repr

def Failure.message : Failure → String
  | benchmark e => e.message
  | home .unknown => "Could not determine home directory."
  | home .nullCharacter => Storage.nullCharacterMessage
  | load e => e.message
  | line e => e.message
  | save e => e.message

inductive Ending where
  | done
  | misuse
  | failed (e : Failure)
  deriving DecidableEq, Repr

structure Outcome where
  output : List Output
  files : Storage.FileTree
  ending : Ending

/-- What the world gives to a run. -/
structure World where
  home : String
  files : Storage.FileTree
  /-- All of the input. -/
  input : String
  /-- The numbers that tables refuse to hold. -/
  refuses : Storage.ColumnRule := fun _ => none

def usage : String :=
  "usage: [options] [expression ...]\n" ++
  "Each expression is executed as a line; without any, lines are read from a prompt.\n" ++
  "options: " ++ " ".intercalate (Setting.all.map Setting.name)

/-- The postfix order of an expression, or its error. -/
def postfixLine (text : String) : Output :=
  .reply (.text (match postfixText ∅ text with
    | .ok order => order
    | .error e => e.message))

def endingOf (failure : Option EvalError) : Ending :=
  failure.elim .done fun e => .failed (.line e)

/-- Executes the lines: those of the arguments if there are any, or those of the input. -/
def transcript (args : Arguments) (input : String) (s : Session) : Session.Transcript :=
  if args.expressions.isEmpty then s.runPrompt (Session.inputLines input)
  else s.runLines args.expressions

/-- The directory of the state; an empty path stands for the default one. -/
def stateDirectory (args : Arguments) (home : String) : Except Storage.HomeError Storage.Path :=
  (Storage.Path.ofString
    (if args.stateDirectory = "" then Storage.defaultDirectory
      else args.stateDirectory)).expandHome home

/-- A run that keeps its session in a directory. -/
def runKept (args : Arguments) (w : World) (directory : Storage.Path) : Outcome :=
  match Storage.load w.files directory with
  | .error e => ⟨[], w.files, .failed (.load e)⟩
  | .ok (history, vars) =>
    let start : Session := { precision := args.precision }
    let t := transcript args w.input (start.restore history vars)
    let (saved, files) :=
      (Storage.save w.refuses directory t.session.history t.session.vars).on w.files
    match saved with
    | .ok () => ⟨t.output, files, endingOf t.failure⟩
    | .error e => ⟨t.output, files, .failed (.save e)⟩

def run (args : Arguments) (w : World) : Outcome :=
  if args.benchmark then
    match Benchmark.run ∅ args.iterations [] with
    | .ok _ => ⟨[.reply .timing], w.files, .done⟩
    | .error e => ⟨[], w.files, .failed (.benchmark e)⟩
  else if args.rpn then ⟨args.expressions.map postfixLine, w.files, .done⟩
  else if args.persist then
    match stateDirectory args w.home with
    | .ok directory => runKept args w directory
    | .error e => ⟨[], w.files, .failed (.home e)⟩
  else
    let t := transcript args w.input { precision := args.precision }
    ⟨t.output, w.files, endingOf t.failure⟩

/-- A run from the words of the command line. -/
def runWords (words : List String) (w : World) : Outcome :=
  match Arguments.read words with
  | .ok args => run args w
  | .error .help => ⟨[.reply (.text usage)], w.files, .done⟩
  | .error .misuse => ⟨[], w.files, .misuse⟩

end Reckoner.CommandLine
