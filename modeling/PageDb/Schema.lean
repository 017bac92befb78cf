import PageDb.Entry.Convert

/-!
Schemas: the columns of a table, with exactly one primary column.
-/

namespace PageDb

/-- A column and its constraints.  A primary column never holds null. -/
structure Column where
  name : String
  type : ColumnType
  primary : Bool := false
  notNull : Bool := false
  /-- The greatest number of characters of a text, if there is one. -/
  maxLength : Option Nat := none
deriving DecidableEq, Repr

namespace Column

/-- The column as the primary one, which rules out null. -/
def asPrimary (c : Column) : Column := { c with primary := true, notNull := true }

/-- Whether a value is longer than the column allows. -/
def exceeds (c : Column) (e : Entry) : Bool :=
  match c.maxLength, e with
  | some limit, .text s => decide (limit < s.length)
  | _, _ => false

/-- The entry as a value of the column, if it may be one. -/
def validate (c : Column) (e : Entry) : Result Entry :=
  if e.isNull then
    if c.notNull then .error (.nullNotAllowed c.name) else .ok .null
  else do
    let value ← e.coerce c.type
    if c.exceeds value then .error (.valueTooLong c.name) else .ok value

end Column

/-- The first name of a list that was in it before. -/
def firstRepeated? : (seen : List String) → List String → Option String
  | _, [] => none
  | seen, name :: rest =>
    if name ∈ seen then some name else firstRepeated? (name :: seen) rest

/-- The columns of a table and the place of the primary one among them. -/
structure Schema where
  columns : List Column
  primaryIndex : Nat
deriving DecidableEq, Repr

namespace Schema

/-- The places of the primary columns. -/
def primaries (columns : List Column) : List Nat :=
  (List.range columns.length).filter fun i => (columns[i]?.map Column.primary).getD false

/-- The schema of a list of columns, if no name repeats and exactly one column is primary. -/
def ofColumns (columns : List Column) : Result Schema :=
  match firstRepeated? [] (columns.map Column.name) with
  | some name => .error (.duplicateColumn name)
  | none =>
    match primaries columns with
    | [i] => .ok ⟨columns, i⟩
    | many => .error (.primaryCount many.length)

/-- The number of columns. -/
def width (s : Schema) : Nat := s.columns.length

/-- The place of the column with the given name. -/
def indexOf? (s : Schema) (name : String) : Option Nat :=
  s.columns.findIdx? fun c => c.name = name

/-- The names of the columns in order. -/
def names (s : Schema) : List String := s.columns.map Column.name

/-- The primary column. -/
def primaryColumn (s : Schema) : Column :=
  (s.columns[s.primaryIndex]?).getD { name := "", type := .int }

/-- The name of the primary column. -/
def primaryName (s : Schema) : String := s.primaryColumn.name

end Schema

end PageDb
