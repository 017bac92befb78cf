import PageDb.Config
import PageDb.Schema
import PageDb.Store.Rows

/-!
Tables: a schema over a store.

A `Table` value is a handle.  It says what never changes about a table; the rows are in the store
with its number, in a tablespace.  A handle outlives the table: the store of a dropped table stays
in the tablespace and refuses everything.
-/

namespace PageDb

/-- A handle to a table. -/
structure Table where
  /-- Its own for ever, unlike its name. -/
  number : Nat
  database : String
  name : String
  schema : Schema
deriving DecidableEq, Repr

/-- The stores of all tables, by number, over one disk. -/
structure Tablespace where
  stores : SortedMap Nat Store := ∅
  disk : Disk := {}

/-- Counters of a table. -/
structure TableStats where
  pages : Nat
  residentPages : Nat
  residentBytes : Nat
  pinnedPages : Nat
  resurrections : Nat
  rows : Nat
deriving DecidableEq, Repr

namespace Tablespace

/-- Adds a store under a number. -/
def addStore (s : Tablespace) (number : Nat) (store : Store) : Tablespace :=
  { s with stores := s.stores.insert number store }

/-- Takes a store away. -/
def removeStore (s : Tablespace) (number : Nat) : Tablespace :=
  { s with stores := s.stores.erase number }

/-- Unpins every page of a table. -/
def unpin (s : Tablespace) (number : Nat) : Tablespace :=
  { s with stores := s.stores.modify number Store.unpin }

/-- Works on the disk. -/
def onDisk {α : Type} (action : Action Disk α) : Action Tablespace α :=
  action.onPart Tablespace.disk fun disk s => { s with disk := disk }

end Tablespace

namespace Table

/-- The name by which the table is locked. -/
def qualifiedName (t : Table) : String := t.database ++ "." ++ t.name

/-- The place of the primary column. -/
def primaryIndex (t : Table) : Nat := t.schema.primaryIndex

/-- The store of the table; one that is not there counts as dropped. -/
def store (t : Table) (s : Tablespace) : Store :=
  (s.stores.get? t.number).getD
    { database := t.database, table := t.name, budget := 0, cap := 1, index := none }

/-- Works on the store of the table. -/
def onStore {α : Type} (t : Table) (action : Action Shelf α) : Action Tablespace α :=
  action.onPart (fun s => ⟨t.store s, s.disk⟩) fun shelf s =>
    { stores := s.stores.insert t.number shelf.store, disk := shelf.disk }

/-- The counters of the table. -/
def stats (t : Table) (s : Tablespace) : TableStats :=
  let store := t.store s
  { pages := store.pageCount
    residentPages := store.residentCount
    residentBytes := store.residentBytes
    pinnedPages := store.pinnedCount
    resurrections := store.resurrections
    rows := store.rowCount }

/-- The row of a key. -/
def get (t : Table) (key : Entry) : Action Tablespace Row :=
  t.onStore (Shelf.getRow key t.primaryIndex)

/-- The row of a key, if it is there. -/
def find? (t : Table) (key : Entry) : Action Tablespace (Option Row) := do
  match ← (t.get key).attempt with
  | .ok row => pure (some row)
  | .error (.keyNotFound _) => pure none
  | .error e => throw e

/-- Whether there is a row of the key. -/
def contains (t : Table) (key : Entry) : Action Tablespace Bool := do
  return (← t.find? key).isSome

/-- The smallest key, or the smallest one greater than `after`. -/
def nextKey? (t : Table) (after : Option Entry) : Action Tablespace (Option Entry) := do
  (t.store (← MonadState.get)).nextKey? after

/-- All keys in ascending order. -/
def keys (t : Table) : Action Tablespace (List Entry) := do
  (t.store (← MonadState.get)).keys

/-- The entries as values of the columns, place by place. -/
def validateAll (columns : List Column) (entries : List Entry) : Result (List Entry) :=
  (columns.zip entries).mapM fun (c, e) => c.validate e

/-- Adds a row given in column order. -/
def insert (t : Table) (entries : List Entry) (pin : Bool) : Action Tablespace Unit := do
  let columns := t.schema.columns
  if entries.length ≠ columns.length then
    throw (.lengthMismatch columns.length entries.length)
  let values ← validateAll columns entries
  t.onStore (Shelf.insertRow values t.primaryIndex pin)

/-- Reads one literal for each column. -/
def parseAll (columns : List Column) (literals : List String) : Result (List Entry) :=
  (columns.zip literals).mapM fun (c, literal) => Entry.parse literal c.type

/-- Reads literals for named columns, one after the other, into a row that starts out null. -/
def parseNamed (t : Table) (seen : List String) (entries : List Entry) :
    List (String × String) → Result (List Entry)
  | [] => .ok entries
  | (name, literal) :: rest =>
    if name ∈ seen then .error (.duplicateColumn name)
    else
      match t.schema.indexOf? name with
      | none => .error (.schemaMismatch (.unknownColumn t.name name))
      | some i => do
        let type := ((t.schema.columns[i]?).map Column.type).getD .text
        let entry ← Entry.parse literal type
        parseNamed t (name :: seen) (entries.set i entry) rest

/-- Reads the literals of a row.  Columns that are not named are null. -/
def parseRow (t : Table) (names : Option (List String)) (literals : List String) :
    Result (List Entry) :=
  match names with
  | none =>
    if literals.length ≠ t.schema.width then
      .error (.lengthMismatch t.schema.width literals.length)
    else parseAll t.schema.columns literals
  | some names =>
    if names.length ≠ literals.length then
      .error (.lengthMismatch names.length literals.length)
    else t.parseNamed [] (List.replicate t.schema.width .null) (names.zip literals)

/-- Adds a row given by literals. -/
def insertLiterals (t : Table) (names : Option (List String)) (literals : List String)
    (pin : Bool) : Action Tablespace Unit := do
  let entries ← t.parseRow names literals
  t.insert entries pin

/-- Removes the row of a key. -/
def delete (t : Table) (key : Entry) (pin : Bool) : Action Tablespace Unit :=
  t.onStore (Shelf.deleteRow key t.primaryIndex pin)

/-- The column of an assignment and the value it may hold there. -/
def resolveAssignment (t : Table) (assignment : String × Entry) : Result (Nat × Entry) :=
  match t.schema.indexOf? assignment.1 with
  | none => .error (.columnNotFound assignment.1)
  | some i => do
    match t.schema.columns[i]? with
    | none => .error (.columnNotFound assignment.1)
    | some column => return (i, ← column.validate assignment.2)

/-- Assigns values to named columns of the row of a key. -/
def update (t : Table) (key : Entry) (assignments : List (String × Entry)) (pin : Bool) :
    Action Tablespace Unit := do
  let resolved ← (assignments.mapM t.resolveAssignment : Result (List (Nat × Entry)))
  t.onStore
    (Shelf.updateRow key t.primaryIndex (resolved.map Prod.fst) (resolved.map Prod.snd) pin)

/-- Writes every page in memory; the answer is how many there are. -/
def persist (t : Table) : Action Tablespace Nat := t.onStore Shelf.persist

/-- Removes files one after the other. -/
def removeFiles (t : Table) : List Nat → Action Tablespace Unit
  | [] => pure ()
  | page :: rest => do
    let _ ← Tablespace.onDisk (Disk.remove (PageFile.name t.database t.name page))
    removeFiles t rest

/-- Drops the rows and deletes the page files. -/
def drop (t : Table) : Action Tablespace Unit := do
  t.onStore (Shelf.modifyStore Store.drop)
  let pages ← Tablespace.onDisk (Disk.pageNumbers t.database t.name)
  t.removeFiles pages

/-- Opens empty pages. -/
def openGap (t : Table) : (count : Nat) → Action Tablespace Unit
  | 0 => pure ()
  | count + 1 => do
    let _ ← t.onStore (Shelf.insertPage [] t.primaryIndex)
    openGap t count

/-- Loads page files in the order of their numbers, of which `expected` is the next one due.
Numbers without a file become empty pages, so that pages keep the numbers of their files. -/
def loadPages (t : Table) : (expected : Nat) → List Nat → Action Tablespace Unit
  | _, [] => pure ()
  | expected, page :: rest => do
    t.openGap (page - expected)
    let image ← Tablespace.onDisk (Disk.read (PageFile.name t.database t.name page))
    let rows ← PageImage.decode image
    let _ ← t.onStore (Shelf.insertPage rows t.primaryIndex)
    loadPages t (max expected page + 1) rest

/-- Loads the page files that an earlier run left. -/
def recover (t : Table) : Action Tablespace Unit := do
  let pages ← Tablespace.onDisk (Disk.pageNumbers t.database t.name)
  t.loadPages 1 pages

end Table

end PageDb
