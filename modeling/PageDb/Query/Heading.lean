import PageDb.Row
import PageDb.Schema

/-!
Column names over a list of tables.

A query sees the columns of its tables side by side.  A bare name has to belong to exactly one of
the tables; a name of the form `table.column` belongs to the first table of that name.
-/

namespace PageDb

/-- The name and the schema of a table that takes part in a query. -/
structure Heading where
  table : String
  schema : Schema
deriving DecidableEq, Repr

/-- A column found by its name. -/
structure ColumnRef where
  /-- The place of its table in the list. -/
  table : Nat
  /-- Its place in that table. -/
  column : Nat
  /-- Its place in the rows of all tables side by side. -/
  offset : Nat
  type : ColumnType
deriving DecidableEq, Repr

/-- The parts of a text between the dots. -/
def splitAtDots : List Char → List (List Char)
  | [] => [[]]
  | c :: rest =>
    match splitAtDots rest with
    | [] => [[c]]
    | part :: parts => if c = '.' then [] :: part :: parts else (c :: part) :: parts

/-- The parts of a name between the dots. -/
def nameParts (name : String) : List String := (splitAtDots name.toList).map String.ofList

namespace Heading

/-- The number of columns. -/
def width (h : Heading) : Nat := h.schema.width

/-- The name of a column with its table in front. -/
def qualify (h : Heading) (column : String) : String := h.table ++ "." ++ column

/-- The column of the given name, in a table at the given place. -/
def column? (h : Heading) (table offset : Nat) (name : String) : Option ColumnRef := do
  let i ← h.schema.indexOf? name
  let column ← h.schema.columns[i]?
  return { table := table, column := i, offset := offset + i, type := column.type }

/-- The columns of the given name, one for each table that has it. -/
def columnsNamed (name : String) : (table offset : Nat) → List Heading → List ColumnRef
  | _, _, [] => []
  | table, offset, h :: rest =>
    (h.column? table offset name).toList ++ columnsNamed name (table + 1) (offset + h.width) rest

/-- The first table of the given name, with its place and the place of its first column. -/
def tableNamed? (name : String) : (table offset : Nat) → List Heading →
    Option (Heading × Nat × Nat)
  | _, _, [] => none
  | table, offset, h :: rest =>
    if h.table = name then some (h, table, offset)
    else tableNamed? name (table + 1) (offset + h.width) rest

/-- Finds the column of a bare name, which only one table may have. -/
def resolveBare (headings : List Heading) (name : String) : Result ColumnRef :=
  match columnsNamed name 0 0 headings with
  | [] => .error (.columnNotFound name)
  | [ref] => .ok ref
  | _ => .error (.columnAmbiguous name)

/-- Finds a column of the first table of the given name. -/
def findQualified? (headings : List Heading) (table column : String) : Option ColumnRef := do
  let (h, i, offset) ← tableNamed? table 0 0 headings
  h.column? i offset column

/-- Finds the column of a bare or qualified name. -/
def resolve (headings : List Heading) (name : String) : Result ColumnRef :=
  match nameParts name with
  | [_] => resolveBare headings name
  | [table, column] =>
    match findQualified? headings table column with
    | some ref => .ok ref
    | none => .error (.columnNotFound name)
  | _ => .error (.columnMalformed name)

end Heading

/-- The rows of one or more tables side by side. -/
structure JointRow where
  headings : List Heading
  entries : List Entry
deriving DecidableEq

namespace JointRow

/-- Puts one row of each table side by side. -/
def ofRows (headings : List Heading) (rows : List Row) : JointRow :=
  ⟨headings, rows.flatMap Row.entries⟩

/-- The entry at a place. -/
def entryAt (r : JointRow) (offset : Nat) : Entry := (r.entries[offset]?).getD .null

/-- The entry of a named column, and the column's type. -/
def lookup (r : JointRow) (name : String) : Result (Entry × ColumnType) := do
  let ref ← Heading.resolve r.headings name
  return (r.entryAt ref.offset, ref.type)

end JointRow

end PageDb
