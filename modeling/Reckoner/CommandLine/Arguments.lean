import Reckoner.CommandLine.Option
import Reckoner.Session.Execute
import Reckoner.Storage.State

/-!
# Arguments

The arguments are options and expressions in any order, the expressions side by side. After `--`
every word is an expression. An option given twice counts as given last.
-/

namespace Reckoner.CommandLine

structure Arguments where
  expressions : List String := []
  stateDirectory : String := Storage.defaultDirectory
  persist : Bool := true
  precision : Int := Session.defaultPrecision
  rpn : Bool := false
  benchmark : Bool := false
  /-- Rounds of the performance test; `none` where it is left to decide. -/
  iterations : Option Int := none
  deriving DecidableEq, Repr

def logLevels : List String := ["DEBUG", "INFO", "WARNING", "ERROR"]

/-- Why there are no arguments to go by. -/
inductive Stop where
  /-- The usage was asked for. -/
  | help
  /-- The words do not fit the usage. -/
  | misuse
  deriving DecidableEq, Repr

/-- Sets an option that takes no value. -/
def Arguments.switch (args : Arguments) : Setting → Except Stop Arguments
  | .help => .error .help
  | .noPersist => .ok { args with persist := false }
  | .rpn => .ok { args with rpn := true }
  | .benchmark => .ok { args with benchmark := true }
  | .stateDirectory | .precision | .iterations | .logLevel => .error .misuse

/-- Sets an option to a value. -/
def Arguments.assign (args : Arguments) (value : String) : Setting → Except Stop Arguments
  | .stateDirectory => .ok { args with stateDirectory := value }
  | .precision =>
    match Text.readInt? value.toList with
    | some places =>
      if Session.minPrecision ≤ places ∧ places ≤ Session.maxPrecision then
        .ok { args with precision := places }
      else .error .misuse
    | none => .error .misuse
  | .iterations =>
    match Text.readInt? value.toList with
    | some n => .ok { args with iterations := some n }
    | none => .error .misuse
  | .logLevel => if logLevels.contains value then .ok args else .error .misuse
  | .help | .noPersist | .rpn | .benchmark => .error .misuse

/-- How far the reading of expressions has come. -/
inductive Group where
  | ahead
  | inside
  /-- An option has followed the expressions. -/
  | passed
  deriving DecidableEq, Repr

def Group.afterOption : Group → Group
  | ahead => ahead
  | inside | passed => passed

/-- Reads the words from left to right. `misfit` tells of a word that fits nowhere; it is reported
at the end, for help may be asked for after it. -/
def readFrom (args : Arguments) (group : Group) (misfit : Bool) :
    List String → Except Stop Arguments
  | [] => if misfit then .error .misuse else .ok args
  | word :: rest =>
    if word = "--" then
      if misfit || group = .passed then .error .misuse
      else .ok { args with expressions := args.expressions ++ rest }
    else
      match Word.ofString word with
      | .expression =>
        if group = .passed then readFrom args .passed true rest
        else readFrom { args with expressions := args.expressions ++ [word] } .inside misfit rest
      | .unknown => readFrom args group.afterOption true rest
      | .ambiguous => .error .misuse
      | .option s (some value) => do
        readFrom (← args.assign value s) group.afterOption misfit rest
      | .option s none =>
        if s.takesValue then
          match rest with
          | [] => .error .misuse
          | value :: rest' =>
            if value != "--" && Word.ofString value = .expression then do
              readFrom (← args.assign value s) group.afterOption misfit rest'
            else .error .misuse
        else do
          readFrom (← args.switch s) group.afterOption misfit rest

/-- A word before `--` that could be short for several options. -/
def hasAmbiguous (words : List String) : Bool :=
  (words.takeWhile (· != "--")).any fun word => Word.ofString word = .ambiguous

def Arguments.read (words : List String) : Except Stop Arguments :=
  if hasAmbiguous words then .error .misuse else readFrom {} .ahead false words

end Reckoner.CommandLine
