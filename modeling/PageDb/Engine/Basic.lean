import PageDb.Lock.Manager
import PageDb.Query.Cursor

/-!
Engines: databases and their tables, sessions, and the locks between them.

Databases and tables have numbers that are never used again.  A database that was dropped leaves
the registry, but the sessions connected to it keep it.
-/

namespace PageDb

/-- A named set of tables. -/
structure Database where
  name : String
  tables : SortedMap String Table := ∅
deriving DecidableEq, Repr

/-- What a session asks an engine to do. -/
inductive Statement where
  | createTable (table : String) (schema : Schema)
  | dropTable (table : String)
  | insert (table : String) (columns : Option (List String)) (rows : List (List String))
  | delete (table : String) (filter : Option Predicate)
  | update (table column : String) (value : Operand) (filter : Option Predicate)
  | select (tables : List String) (on : Option Predicate) (selectors : List Selector)
      (filter : Option Predicate)
deriving DecidableEq

/-- A statement that has found its tables and is taking their locks. -/
structure Running where
  statement : Statement
  /-- The tables to lock, in order. -/
  tables : List Table
  mode : LockMode
  /-- Those of them that are not locked yet. -/
  pending : List Table
deriving DecidableEq

/-- A client of one database. -/
structure Session where
  database : Nat
  inTransaction : Bool := false
  /-- The statement that waits for a lock, if one does. -/
  running : Option Running := none
deriving DecidableEq

/-- Everything an engine keeps. -/
structure Engine where
  config : Config := {}
  space : Tablespace := {}
  /-- Every database ever created, by number. -/
  databases : SortedMap Nat Database := ∅
  /-- The databases that can be connected to, by name. -/
  registry : SortedMap String Nat := ∅
  locks : LockManager := {}
  sessions : SortedMap Nat Session := ∅
  nextSession : Nat := 1
  nextDatabase : Nat := 1
  nextTable : Nat := 1

/-- What a table is to the lock manager. -/
def Table.target (t : Table) : Target := ⟨t.number, t.qualifiedName⟩

namespace Engine

/-- An engine without databases on the files of a disk.  The directory is made if it is gone. -/
def start (config : Config) (disk : Disk) : Engine :=
  { config := config
    space := { disk := { disk with directory := disk.directory.restored, reads := 0, writes := 0 } } }

/-- Works on the tables. -/
def onSpace {α : Type} (action : Action Tablespace α) : Action Engine α :=
  action.onPart Engine.space fun space e => { e with space := space }

/-! ## Databases -/

/-- The number of a registered database. -/
def databaseNumber (e : Engine) (name : String) : Result Nat :=
  match e.registry.get? name with
  | some number => .ok number
  | none => .error (.databaseNotFound name)

/-- The database of a number. -/
def database (e : Engine) (number : Nat) : Database :=
  (e.databases.get? number).getD { name := "" }

/-- Registers a database unless one of that name is registered. -/
def createDatabase (e : Engine) (name : String) : Engine :=
  if e.registry.contains name then e
  else
    { e with
      databases := e.databases.insert e.nextDatabase { name := name }
      registry := e.registry.insert name e.nextDatabase
      nextDatabase := e.nextDatabase + 1 }

/-- Replaces the tables of a database. -/
def setTables (number : Nat) (tables : SortedMap String Table) : Action Engine Unit :=
  modify fun e =>
    { e with databases := e.databases.modify number fun d => { d with tables := tables } }

/-- Drops tables one after the other. -/
def dropEach : List Table → Action Engine Unit
  | [] => pure ()
  | table :: rest => do
    onSpace table.drop
    dropEach rest

/-- Takes a database out of the registry and drops its tables. -/
def dropDatabase (name : String) : Action Engine Unit := do
  let number ← (← get).databaseNumber name
  modify fun e => { e with registry := e.registry.erase name }
  let tables := ((← get).database number).tables.values
  setTables number ∅
  dropEach tables

/-- Writes the pages of tables one after the other. -/
def persistEach : List Table → Action Engine Unit
  | [] => pure ()
  | table :: rest => do
    let _ ← onSpace table.persist
    persistEach rest

/-- Writes the pages of every table of a database. -/
def persist (number : Nat) : Action Engine Unit := do
  persistEach ((← get).database number).tables.values

/-- All tables that can be reached by name, database by database. -/
def registeredTables (e : Engine) : List Table :=
  e.registry.values.flatMap fun number => (e.database number).tables.values

/-- Writes the pages of every database. -/
def quit : Action Engine Unit := do persistEach (← get).registeredTables

/-! ## Tables -/

/-- A table of a database. -/
def table (e : Engine) (number : Nat) (name : String) : Result Table :=
  match (e.database number).tables.get? name with
  | some table => .ok table
  | none => .error (.tableNotFound name)

/-- The tables of the given names, of which the first one that is missing is an error. -/
def tables (e : Engine) (number : Nat) (names : List String) : Result (List Table) :=
  names.mapM (e.table number)

/-- A handle and an empty store for a new table. -/
def makeTable (number : Nat) (name : String) (schema : Schema) : Action Engine Table := do
  let e ← get
  let database := e.database number
  if database.tables.contains name then throw (.tableExists name)
  let table : Table :=
    { number := e.nextTable, database := database.name, name := name, schema := schema }
  set
    { e with
      nextTable := e.nextTable + 1
      space := e.space.addStore table.number (e.config.newStore database.name name) }
  pure table

/-- Enters a table into its database. -/
def register (number : Nat) (table : Table) : Action Engine Unit := do
  setTables number (((← get).database number).tables.insert table.name table)

/-- Creates an empty table. -/
def createTable (number : Nat) (name : String) (schema : Schema) : Action Engine Table := do
  let table ← makeTable number name schema
  register number table
  pure table

/-- Creates a table with the rows of the page files it finds. -/
def openTable (number : Nat) (name : String) (schema : Schema) : Action Engine Table := do
  let table ← makeTable number name schema
  match ← (onSpace table.recover).attempt with
  | .ok () =>
    register number table
    pure table
  | .error failure =>
    modify fun e => { e with space := e.space.removeStore table.number }
    throw failure

/-- Takes a table out of its database and drops it. -/
def dropTable (number : Nat) (name : String) : Action Engine Unit := do
  let e ← get
  let table ← e.table number name
  setTables number ((e.database number).tables.erase name)
  onSpace table.drop

/-! ## Locks -/

/-- Unpins tables. -/
def unpinEach (tables : List Nat) (e : Engine) : Engine :=
  { e with space := tables.foldl Tablespace.unpin e.space }

/-- Gives a lock back; the pages of the table are unpinned.  The answer is whether it was held. -/
def release (e : Engine) (session : Nat) (table : Table) (mode : LockMode) : Bool × Engine :=
  let (released, locks) := e.locks.release ⟨session, table.target, mode⟩
  let e := { e with locks := locks }
  (released, if released then e.unpinEach [table.number] else e)

/-- Gives the locks of tables back, one after the other. -/
def releaseEach (session : Nat) (mode : LockMode) (tables : List Table) (e : Engine) : Engine :=
  tables.foldl (fun e table => (e.release session table mode).2) e

/-- Gives back all that a session holds. -/
def releaseAll (e : Engine) (session : Nat) : Engine :=
  let (released, locks) := e.locks.releaseAll session
  { e with locks := locks }.unpinEach released

/-- Asks for a lock without waiting for long; the answer is whether it is granted. -/
def tryLock (e : Engine) (session : Nat) (table : Table) (mode : LockMode) : Bool × Engine :=
  let (granted, locks) := e.locks.tryRequest ⟨session, table.target, mode⟩
  (granted, { e with locks := locks })

end Engine

end PageDb
