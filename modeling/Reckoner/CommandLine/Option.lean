import Reckoner.Text.Digit

/-!
# Words of the command line

A word is an option, if it starts with a hyphen, or else an expression. A long option may be cut
short as long as one option alone starts that way, and may carry its value after an equals sign.
Negative numbers and words with a space in them are expressions, hyphen or not.
-/

namespace Reckoner.CommandLine

inductive Setting where
  | help
  | stateDirectory
  | noPersist
  | precision
  | rpn
  | benchmark
  | iterations
  | logLevel
  deriving DecidableEq, Repr

namespace Setting

def name : Setting → String
  | help => "--help"
  | stateDirectory => "--state_dir"
  | noPersist => "--no_persist"
  | precision => "--precision"
  | rpn => "--rpn"
  | benchmark => "--benchmark"
  | iterations => "--iterations"
  | logLevel => "--log_level"

def all : List Setting :=
  [help, stateDirectory, noPersist, precision, rpn, benchmark, iterations, logLevel]

/-- Whether the option is followed by a value. -/
def takesValue : Setting → Bool
  | stateDirectory | precision | iterations | logLevel => true
  | help | noPersist | rpn | benchmark => false

/-- The options whose names start with the given characters. -/
def startingWith (start : List Char) : List Setting :=
  all.filter fun s => start.isPrefixOf s.name.toList

end Setting

inductive Word where
  | expression
  /-- An option, and the value written in the same word. -/
  | option (s : Setting) (value : Option String)
  | unknown
  | ambiguous
  deriving DecidableEq, Repr

/-- A number such as `12`, `1.5` or `.5`, in digits of any script; a line break may follow. -/
def isDecimal (cs : List Char) : Bool :=
  let isDigit (c : Char) := (Text.digit? c).isSome
  let body := if cs.getLast? = some '\n' then cs.dropLast else cs
  let rest := body.dropWhile isDigit
  match rest with
  | [] => !body.isEmpty
  | '.' :: places => !places.isEmpty && places.all isDigit
  | _ => false

/-- A word that starts with a hyphen and is no option. -/
def Word.other (cs : List Char) : Word :=
  if isDecimal cs.tail || cs.contains ' ' then .expression else .unknown

/-- A word of two hyphens and more. -/
def Word.long (cs : List Char) : Word :=
  let start := cs.takeWhile (· != '=')
  let value := match cs.dropWhile (· != '=') with
    | [] => none
    | _ :: value => some (String.ofList value)
  match Setting.all.find? (·.name.toList == start) with
  | some s => .option s value
  | none =>
    match Setting.startingWith start with
    | [] => .other cs
    | [s] => .option s value
    | _ => .ambiguous

/-- What a word is. The short form `-h` may be repeated within a word and takes any other rest of
the word for a value. -/
def Word.ofString (text : String) : Word :=
  match text.toList with
  | '-' :: '-' :: rest => .long ('-' :: '-' :: rest)
  | '-' :: 'h' :: rest =>
    .option .help (if rest.all (· == 'h') then none else some (String.ofList rest))
  | '-' :: c :: rest => .other ('-' :: c :: rest)
  | _ => .expression

end Reckoner.CommandLine
