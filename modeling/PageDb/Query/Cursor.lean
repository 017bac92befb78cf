import PageDb.Query.Join
import PageDb.Query.Lookahead
import PageDb.Query.Projection
import PageDb.Query.Scan

/-!
Queries and the cursors that read their answers.
-/

namespace PageDb

/-- Where the rows of a query come from. -/
inductive Source where
  | scan (s : Scan)
  | join (j : Join)
deriving DecidableEq

namespace Source

/-- The names and schemas of the tables that are read. -/
def headings : Source → List Heading
  | .scan s => [s.walk.table.heading]
  | .join j => j.headings

/-- Makes the next row that the predicate accepts. -/
def produce (p : Option Predicate) (first : Bool) : Moving Source (Option JointRow) :=
  ExceptT.mk fun (source, space) =>
    match source with
    | .scan s =>
      let (result, (s, space)) := (Scan.produce p first).run (s, space)
      (result, (.scan s, space))
    | .join j =>
      let (result, (j, space)) := (Join.produce p).run (j, space)
      (result, (.join j, space))

end Source

/-- A query: a source, the predicate its rows have to satisfy, and the lookahead. -/
structure Query where
  source : Source
  selection : Option Predicate := none
  ahead : Lookahead JointRow := {}
deriving DecidableEq

namespace Query

/-- A query over one table. -/
def ofTable (t : Table) : Query := { source := .scan t.scan }

/-- A query over the join of tables on a predicate. -/
def ofJoin (tables : List Table) (on : Option Predicate) : Query :=
  { source := .join (.ofTables tables on) }

/-- The names and schemas of the tables that are read. -/
def headings (q : Query) : List Heading := q.source.headings

/-- The query with another selection.  A scan chooses its plan anew. -/
def withSelection (q : Query) (p : Option Predicate) : Query :=
  match q.source with
  | .scan s => { q with selection := p, source := .scan { s with plan := s.walk.table.planFor p } }
  | .join _ => { q with selection := p }

/-- Whether something may still come. -/
def hasNext (q : Query) : Bool := q.ahead.hasNext

/-- The next row. -/
def next : Moving Query (Option JointRow) :=
  ExceptT.mk fun (q, space) =>
    let (result, (ahead, source, space)) :=
      (Lookahead.next (Source.produce q.selection)).run (q.ahead, q.source, space)
    (result, ({ q with ahead := ahead, source := source }, space))

/-- The rows to come, at most `fuel` of them; the first error ends the query. -/
def rowsWithin : (fuel : Nat) → Moving Query (List JointRow)
  | 0 => pure []
  | fuel + 1 => do
    match ← next with
    | none => pure []
    | some row => return row :: (← rowsWithin fuel)

/-- A bound on the number of rows to come. -/
def rowBound (q : Query) (space : Tablespace) : Nat :=
  match q.source with
  | .scan s => (s.walk.table.store space).rowCount + 2
  | .join j => j.combinations space + 2

/-- All rows to come. -/
def rows : Moving Query (List JointRow) := do
  let (q, space) ← get
  rowsWithin (q.rowBound space)

end Query

/-- Something that is read step by step. -/
inductive Cursor where
  | keys (walk : Walk)
  | rows (walk : Walk)
  | query (q : Query)
  | answer (q : Query) (projection : Projection)
deriving DecidableEq

/-- What one step of a cursor gives. -/
inductive Item where
  | key (k : Entry)
  | row (r : Row)
  | entries (es : List Entry)
deriving DecidableEq

namespace Cursor

/-- A cursor over the answer of a query with a selection, projected onto selected columns. -/
def ofSelection (q : Query) (p : Option Predicate) (selectors : List Selector) : Result Cursor := do
  let q := q.withSelection p
  let projection ← Projection.ofSelectors q.headings selectors
  return .answer q projection

/-- Whether something may still come, as far as the cursor can tell. -/
def hasNext? : Cursor → Option Bool
  | .keys _ => none
  | .rows _ => none
  | .query q => some q.hasNext
  | .answer q _ => some q.hasNext

/-- The cursor with another selection; only a query has one that can be changed. -/
def withSelection (c : Cursor) (p : Option Predicate) : Cursor :=
  match c with
  | .query q => .query (q.withSelection p)
  | c => c

/-- The next item. -/
def next : Moving Cursor (Option Item) :=
  ExceptT.mk fun (cursor, space) =>
    match cursor with
    | .keys walk =>
      let (result, (walk, space)) := Walk.nextKey.run (walk, space)
      (result.map fun key => key.map Item.key, (.keys walk, space))
    | .rows walk =>
      let (result, (walk, space)) := Walk.nextRow.run (walk, space)
      (result.map fun row => row.map Item.row, (.rows walk, space))
    | .query q =>
      let (result, (q, space)) := Query.next.run (q, space)
      (result.map fun row => row.map fun r => Item.entries r.entries, (.query q, space))
    | .answer q projection =>
      let (result, (q, space)) := Query.next.run (q, space)
      (result.map fun row => row.map fun r => Item.entries (projection.apply r),
        (.answer q projection, space))

end Cursor

end PageDb
