import PageDb.Query.Heading

/-!
Projections: the columns a query answers with.

The tables are walked through once more here, with the place of the first column of each: a
selector only needs the place of its column in the rows of all tables side by side.
-/

namespace PageDb

/-- One item of a list of selected columns.  Without a column it selects all of them, and without
a table those of every table. -/
structure Selector where
  table : Option String := none
  column : Option String := none
deriving DecidableEq, Repr

/-- The text of a selector. -/
def Selector.toText (s : Selector) : String :=
  match s.table, s.column with
  | none, none => "*"
  | some table, none => table ++ ".*"
  | none, some column => column
  | some table, some column => table ++ "." ++ column

/-- Selected columns: their places in the rows, with the header of each. -/
structure Projection where
  columns : List (Nat × String)
deriving DecidableEq, Repr

namespace Projection

/-- The headers in order. -/
def headers (p : Projection) : List String := p.columns.map Prod.snd

/-- The selected entries of a row. -/
def apply (p : Projection) (row : JointRow) : List Entry :=
  p.columns.map fun (offset, _) => row.entryAt offset

/-- Every column of a table whose first column is at `offset`. -/
def wholeTable (qualified : Bool) (h : Heading) (offset : Nat) : List (Nat × String) :=
  h.schema.columns.mapIdx fun i c =>
    (offset + i, if qualified then h.qualify c.name else c.name)

/-- Every column of every table. -/
def allTables (qualified : Bool) : (offset : Nat) → List Heading → List (Nat × String)
  | _, [] => []
  | offset, h :: rest => wholeTable qualified h offset ++ allTables qualified (offset + h.width) rest

/-- The places of the columns of the given name, one for each table that has it. -/
def placesNamed (name : String) : (offset : Nat) → List Heading → List Nat
  | _, [] => []
  | offset, h :: rest =>
    ((h.schema.indexOf? name).map fun i => offset + i).toList ++
      placesNamed name (offset + h.width) rest

/-- The first table of the given name, with the place of its first column. -/
def tableAt? (name : String) : (offset : Nat) → List Heading → Option (Heading × Nat)
  | _, [] => none
  | offset, h :: rest =>
    if h.table = name then some (h, offset) else tableAt? name (offset + h.width) rest

/-- The columns of one selector.  Headers are qualified where whole tables of a join are meant. -/
def select (headings : List Heading) (s : Selector) : Result (List (Nat × String)) :=
  let qualified := decide (1 < headings.length)
  match s.table, s.column with
  | none, none => .ok (allTables qualified 0 headings)
  | some table, none =>
    match tableAt? table 0 headings with
    | some (h, offset) => .ok (wholeTable qualified h offset)
    | none => .error (.columnNotFound s.toText)
  | none, some column =>
    match placesNamed column 0 headings with
    | [] => .error (.columnNotFound column)
    | [place] => .ok [(place, column)]
    | _ => .error (.columnAmbiguous column)
  | some table, some column =>
    let place := (tableAt? table 0 headings).bind fun (h, offset) =>
      (h.schema.indexOf? column).map fun i => offset + i
    match place with
    | some place => .ok [(place, column)]
    | none => .error (.columnNotFound s.toText)

/-- The columns of a list of selectors; an empty list selects all of them. -/
def ofSelectors (headings : List Heading) (selectors : List Selector) : Result Projection := do
  let selectors := if selectors.isEmpty then [{}] else selectors
  let columns ← selectors.mapM (select headings)
  return ⟨columns.flatten⟩

end Projection

end PageDb
