import Reckoner.Decimal.Layout
import Reckoner.Decimal.Reading
import Reckoner.Session.Basic
import Reckoner.Storage.FileTree
import Reckoner.Storage.Table
import Reckoner.Text.Integer

/-!
# The saved state

A session is kept in two tables of a directory, one for its history and one for its variables. What
is read back is what was saved, entry by entry and variable by variable, as far as the tables give
back their fields.

A table is held in memory before it is written, and may refuse there to hold a column of numbers. A
number that is too long is found out later, when its row comes to be written: the rows before it are
in the file by then.
-/

namespace Reckoner.Storage

def defaultDirectory : String := "~/.mathics"

def historyFile : String := "history.csv"

def variablesFile : String := "variables.csv"

def historyColumns : List String := ["id", "expression", "result"]

def variableColumns : List String := ["name", "value"]

/-! ## Saving -/

def historyTable (history : List Entry) : Table where
  header := historyColumns
  rows := history.map fun entry => [toString entry.id, entry.expression, entry.result]

/-- What is not a number is saved as an empty field. -/
def valueField (x : Float) : String := if x.isNaN then "" else Double.exactText x

def variablesTable (vars : Variables) : Table where
  header := variableColumns
  rows := vars.toList.map fun (name, value) => [name, valueField value]

inductive SaveError where
  | file (e : FileError)
  /-- No table holds the numbers of the entries; the text says why. -/
  | columnRefused (cause : String)
  /-- The number of an entry has too many digits to be written. -/
  | numberTooLong
  deriving DecidableEq, Repr

def SaveError.message : SaveError → String
  | file e => e.message
  | columnRefused cause => cause
  | numberTooLong =>
    "Exceeds the limit (" ++ toString Text.maxIntegerDigits ++
      " digits) for integer string conversion; " ++
      "use sys.set_int_max_str_digits() to increase the limit"

/-- Why a table does not hold a column of numbers, if it does not. Which numbers are too large for a
table is a matter of where tables are kept, so every rule will do. -/
abbrev ColumnRule := List Int → Option String

/-- The entries before the first one whose number is too long to be written. -/
def writable (history : List Entry) : List Entry :=
  history.takeWhile fun entry => Text.IsShort entry.id

/-- Writes a history, or as much of it as comes before a number that is too long. -/
def writeHistory (path : Path) (history : List Entry) : FileAction SaveError Unit := do
  (writeFile path (historyTable (writable history)).write).mapError .file
  if writable history ≠ history then throw .numberTooLong

/-- Saves a session to a directory. -/
def save (refuses : ColumnRule) (directory : Path) (history : List Entry) (vars : Variables) :
    FileAction SaveError Unit := do
  (makeDirectories directory).mapError .file
  (refuses (history.map Entry.id)).forM fun cause => throw (.columnRefused cause)
  writeHistory (directory.child historyFile) history
  (writeFile (directory.child variablesFile) (variablesTable vars).write).mapError .file

/-! ## Loading -/

inductive LoadError where
  | file (e : FileError)
  /-- A file without rows. -/
  | noColumns
  | missingHistoryColumns (path : Path) (columns : List String)
  | missingVariableColumns (path : Path) (columns : List String)
  | invalidId (e : Text.IntegerError) (text : String)
  | invalidValue (text : String)
  deriving DecidableEq, Repr

def columnList (columns : List String) : String :=
  "[" ++ ", ".intercalate (columns.map Text.quoted) ++ "]"

/-- The most characters of a quoted text that the message on a whole number shows. -/
def shownCharacters : Nat := 200

/-- Why a text is not a whole number. -/
def invalidIdMessage (text : String) : Text.IntegerError → String
  | .malformed =>
    "invalid literal for int() with base 10: " ++
      String.ofList ((Text.quoted text).toList.take shownCharacters)
  | .tooManyDigits count =>
    "Exceeds the limit (" ++ toString Text.maxIntegerDigits ++
      " digits) for integer string conversion: value has " ++ toString count ++
      " digits; use sys.set_int_max_str_digits() to increase the limit"

/-- Why a text is not a double. -/
def invalidValueMessage (text : String) : String :=
  "could not convert string to float: " ++ Text.quoted text

def LoadError.message : LoadError → String
  | file e => e.message
  | noColumns => "No columns to parse from file"
  | missingHistoryColumns path columns =>
    "History file " ++ path.text ++ " is missing columns: " ++ columnList columns
  | missingVariableColumns path columns =>
    "Variables file " ++ path.text ++ " is missing columns: " ++ columnList columns
  | invalidId e text => invalidIdMessage text e
  | invalidValue text => invalidValueMessage text

/-- The value in a field; an empty one stands for what is not a number. -/
def readValue? (field : String) : Option Float :=
  if field = "" then some Double.nan else Double.read? field

/-- The history in a text; a file that is not there counts as empty. A number is read as a whole
number in digits: forms that a table may take for another kind of number, such as `1.0` or `True`,
are refused. -/
def readHistory (path : Path) : Option String → Except LoadError (List Entry)
  | none => .ok []
  | some text => do
    let table ← (Table.read? text).elim (.error .noColumns) .ok
    match table.missing historyColumns with
    | [] =>
      table.rows.mapM fun row =>
        let id := table.cell row "id"
        match Text.readInt id.toList with
        | .ok n => .ok ⟨n, table.cell row "expression", table.cell row "result"⟩
        | .error e => .error (.invalidId e id)
    | missing => .error (.missingHistoryColumns path missing)

/-- The variables in a text, in order; a file that is not there counts as empty. A value is read as
a number, and words such as `True` are refused. -/
def readVariables (path : Path) : Option String → Except LoadError (List (String × Float))
  | none => .ok []
  | some text => do
    let table ← (Table.read? text).elim (.error .noColumns) .ok
    match table.missing variableColumns with
    | [] =>
      table.rows.mapM fun row =>
        let value := table.cell row "value"
        match readValue? value with
        | some x => .ok (table.cell row "name", x)
        | none => .error (.invalidValue value)
    | missing => .error (.missingVariableColumns path missing)

/-- The history and the variables saved in a directory. The history is read first. -/
def load (t : FileTree) (directory : Path) : Except LoadError (List Entry × Variables) := do
  let historyPath := directory.child historyFile
  let variablesPath := directory.child variablesFile
  let history ← readHistory historyPath (← (t.read? historyPath).mapError .file)
  let vars ← readVariables variablesPath (← (t.read? variablesPath).mapError .file)
  return (history, Variables.ofList vars)

end Reckoner.Storage
