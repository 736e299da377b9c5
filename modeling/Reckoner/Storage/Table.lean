/-!
# Tables as text

A table is written as lines of fields with commas between them, the header first. A field that
holds a comma, a quote or a line feed is written between quotes, each quote inside it twice.

The reader takes more than the writer gives: a line may end in a line feed, a carriage return or
both, the last one may lack its end, columns may come in any order, a byte order mark may come
first, and lines of nothing but spaces and tabs do not count. It does not give everything back: a
carriage return outside quotes ends a line. A null character is one like any other, in writing and
in reading.
-/

namespace Reckoner.Storage

structure Table where
  header : List String
  rows : List (List String)
  deriving DecidableEq, Repr

/-! ## Writing -/

/-- A character that a field can only hold between quotes. -/
def needsQuotes (c : Char) : Bool := c == ',' || c == '"' || c == '\n'

def writeField (field : String) : List Char :=
  let cs := field.toList
  if cs.any needsQuotes then
    '"' :: cs.flatMap (fun c => if c == '"' then ['"', '"'] else [c]) ++ ['"']
  else cs

def writeRow (row : List String) : List Char :=
  (row.map writeField).intersperse [','] |>.flatten

def Table.write (t : Table) : String :=
  String.ofList ((t.header :: t.rows).flatMap fun row => writeRow row ++ ['\n'])

/-! ## Reading -/

/-- Where the reader stands in a line. -/
inductive Position where
  | lineStart
  /-- After nothing but spaces and tabs. -/
  | indent
  | fieldStart
  | plain
  | quoted
  /-- After a quote inside quotes, which ends the quoted part unless a quote follows. -/
  | quoteSeen
  deriving DecidableEq, Repr

/-- Whether a line that ends here does not count. -/
def Position.isBlank : Position → Bool
  | lineStart | indent => true
  | _ => false

/-- Whether a quote here opens a quoted part. -/
def Position.opensQuotes : Position → Bool
  | lineStart | fieldStart => true
  | _ => false

/-- The position after a character that is no comma, quote or line break. -/
def Position.afterText (position : Position) (c : Char) : Position :=
  if position.isBlank && (c == ' ' || c == '\t') then indent else plain

/-- The rows from a position on. `field` holds the characters of the field so far from the last one
back, `row` the fields before it likewise. -/
def readRowsFrom (position : Position) (field : List Char) (row : List String) :
    List Char → List (List String)
  | [] => if position.isBlank then [] else [endRow field row]
  | c :: rest =>
    if position = .quoted then
      if c = '"' then readRowsFrom .quoteSeen field row rest
      else readRowsFrom .quoted (c :: field) row rest
    else if c = '"' ∧ position = .quoteSeen then readRowsFrom .quoted (c :: field) row rest
    else if c = '"' ∧ position.opensQuotes then readRowsFrom .quoted field row rest
    else if c = ',' then readRowsFrom .fieldStart [] (String.ofList field.reverse :: row) rest
    else if c = '\n' ∨ c = '\r' then
      if position.isBlank then readRowsFrom .lineStart [] [] rest
      else endRow field row :: readRowsFrom .lineStart [] [] rest
    else readRowsFrom (position.afterText c) (c :: field) row rest
where
  endRow (field : List Char) (row : List String) : List String :=
    (String.ofList field.reverse :: row).reverse

/-- The rows of a text, without the byte order mark that it may start with. -/
def readRows (text : String) : List (List String) :=
  readRowsFrom .lineStart [] []
    (match text.toList with
      | '\ufeff' :: rest => rest
      | cs => cs)

/-- The first row is the header; a text without rows is no table. -/
def Table.read? (text : String) : Option Table :=
  match readRows text with
  | [] => none
  | header :: rows => some ⟨header, rows⟩

/-- The field of a row in a column; empty where the row is too short. -/
def Table.cell (t : Table) (row : List String) (column : String) : String :=
  ((t.header.idxOf? column).bind (row[·]?)).getD ""

/-- Those of the given columns that the table lacks, in order of their names. -/
def Table.missing (t : Table) (columns : List String) : List String :=
  (columns.filter (!t.header.contains ·)).mergeSort fun a b => decide (a ≤ b)

end Reckoner.Storage
