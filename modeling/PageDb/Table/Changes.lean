import PageDb.Query.Predicate
import PageDb.Table.Walk

/-!
Changes to all rows that a predicate accepts.  The rows are found before the first one changes.
-/

namespace PageDb

namespace Table

/-- The name and schema of the table, for queries. -/
def heading (t : Table) : Heading := ⟨t.name, t.schema⟩

/-- A row of the table, for queries. -/
def jointRow (t : Table) (row : Row) : JointRow := .ofRows [t.heading] [row]

/-- The key that a row of the table holds. -/
def keyOf (t : Table) (row : Row) : Entry := (row.entries[t.primaryIndex]?).getD .null

/-- The keys of the accepted rows among at most `fuel` rows to come. -/
def acceptedKeys (t : Table) (p : Predicate) : (fuel : Nat) → Moving Walk (List Entry)
  | 0 => pure []
  | fuel + 1 => do
    match ← Walk.nextRow with
    | none => pure []
    | some row =>
      let accepted ← Predicate.accepts (some p) (t.jointRow row)
      let rest ← acceptedKeys t p fuel
      return if accepted then t.keyOf row :: rest else rest

/-- The keys of the rows that a predicate accepts; of all rows if there is none. -/
def matchingKeys (t : Table) (p : Option Predicate) : Action Tablespace (List Entry) := do
  match p with
  | none => t.keys
  | some p => t.walking (t.acceptedKeys p ((t.store (← MonadState.get)).rowCount + 1))

/-- Removes the rows of keys one after the other. -/
def deleteEach (t : Table) (pin : Bool) : List Entry → Action Tablespace Unit
  | [] => pure ()
  | key :: rest => do
    t.delete key pin
    deleteEach t pin rest

/-- Removes the rows that a predicate accepts; the answer is how many. -/
def deleteWhere (t : Table) (p : Option Predicate) (pin : Bool) : Action Tablespace Nat := do
  let keys ← t.matchingKeys p
  t.deleteEach pin keys
  pure keys.length

/-- Sets one column in the rows of keys one after the other. -/
def setEach (t : Table) (column : Nat) (value : Entry) (pin : Bool) :
    List Entry → Action Tablespace Unit
  | [] => pure ()
  | key :: rest => do
    t.onStore (Shelf.updateRow key t.primaryIndex [column] [value] pin)
    setEach t column value pin rest

/-- The place of a column and the value that an operand gives it. -/
def columnValue (t : Table) (name : String) (value : Operand) : Result (Nat × Entry) :=
  match t.schema.indexOf? name with
  | none => .error (.columnNotFound name)
  | some i =>
    match t.schema.columns[i]? with
    | none => .error (.columnNotFound name)
    | some column => do
      let entry ← value.toEntry column.type
      return (i, ← column.validate entry)

/-- Sets a column in the rows that a predicate accepts; the answer is how many. -/
def updateWhere (t : Table) (name : String) (value : Operand) (p : Option Predicate)
    (pin : Bool) : Action Tablespace Nat := do
  let (column, entry) ← t.columnValue name value
  let keys ← t.matchingKeys p
  t.setEach column entry pin keys
  pure keys.length

end Table

end PageDb
