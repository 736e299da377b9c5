import Std.Data.ExtTreeMap

/-!
# Variable tables

A table gives values to names. It lists its names in code point order, and two tables are equal when
every name has the same value in both. In an expression a variable comes before a constant of the
same name; a name that is neither is left to be a function.
-/

namespace Reckoner

/-- The variables of a session. -/
abbrev Variables := Std.ExtTreeMap String Float

namespace Variables

/-- The table of a list of names and values; a later value of a name replaces an earlier one. -/
def ofList (entries : List (String × Float)) : Variables :=
  entries.foldl (fun table entry => table.insert entry.1 entry.2) ∅

/-- Takes a name out of a table, and says whether it was there. -/
def remove (table : Variables) (name : String) : Bool × Variables :=
  if name ∈ table then (true, table.erase name) else (false, table)

/-- A change to a table. -/
inductive Edit where
  | set (name : String) (value : Float)
  | remove (name : String)
  | clear
  deriving DecidableEq

def Edit.apply (table : Variables) : Edit → Variables
  | set name value => table.insert name value
  | remove name => table.erase name
  | clear => ∅

/-- The table after a list of changes, the first one made first. -/
def edit (table : Variables) (edits : List Edit) : Variables := edits.foldl Edit.apply table

@[simp] theorem edit_nil (table : Variables) : table.edit [] = table := rfl

@[simp] theorem edit_cons (table : Variables) (change : Edit) (rest : List Edit) :
    table.edit (change :: rest) = (change.apply table).edit rest := rfl

theorem getElem?_set (table : Variables) (name other : String) (value : Float) :
    (Edit.apply table (.set name value))[other]? =
      if name = other then some value else table[other]? := by
  simp [Edit.apply, Std.ExtTreeMap.getElem?_insert]

theorem getElem?_remove (table : Variables) (name other : String) :
    (Edit.apply table (.remove name))[other]? = if name = other then none else table[other]? := by
  simp [Edit.apply, Std.ExtTreeMap.getElem?_erase]

theorem getElem?_clear (table : Variables) (name : String) :
    (Edit.apply table .clear)[name]? = none := by
  simp [Edit.apply]

end Variables

/-! ## What an identifier stands for -/

/-- Constants by name. -/
abbrev Constants := List (String × Float)

def Constants.builtin : Constants :=
  [("e", 2.718281828459045), ("π", 3.141592653589793)]

structure Scope where
  vars : Variables := ∅
  constants : Constants := .builtin

def Scope.value? (scope : Scope) (name : String) : Option Float :=
  scope.vars[name]? <|> scope.constants.lookup name

end Reckoner
