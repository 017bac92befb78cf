import PageDb.Table.Changes

/-!
Reading one table.

The predicate decides how.  Without one, or with one that holds of every row, all rows are read; a
comparison of constants is decided once; `primary = constant` looks one row up; and anything else
is checked on every row.
-/

namespace PageDb

/-- How a scan reads its rows. -/
inductive ScanPlan where
  | everyRow
  /-- The predicate has no column; it is decided on the first pull. -/
  | constant
  /-- The primary column has to equal a constant. -/
  | lookup (constant : Operand)
  | filter
  | done
deriving DecidableEq

/-- A scan of one table. -/
structure Scan where
  walk : Walk
  plan : ScanPlan := .everyRow
deriving DecidableEq

/-- Splits a text at its first dot. -/
def splitAtFirstDot (cs : List Char) : Option (List Char × List Char) :=
  match cs.dropWhile fun c => c ≠ '.' with
  | [] => none
  | _ :: rest => some (cs.takeWhile fun c => c ≠ '.', rest)

namespace Table

/-- A scan of the whole table. -/
def scan (t : Table) : Scan := { walk := t.walk }

/-- Whether a name, bare or qualified, is that of the primary column. -/
def isPrimaryName (t : Table) (name : String) : Bool :=
  match splitAtFirstDot name.toList with
  | none => name = t.schema.primaryName
  | some (table, column) =>
    table = t.name.toList && column = t.schema.primaryName.toList

/-- The constant that a comparison equates with the primary column. -/
def keyConstant? (t : Table) (c : Comparison) : Option Operand :=
  match c.left, c.right with
  | .column name, constant =>
    if !constant.isColumn && t.isPrimaryName name then some constant else none
  | constant, .column name => if t.isPrimaryName name then some constant else none
  | _, _ => none

/-- How to read the rows that a predicate accepts. -/
def planFor (t : Table) (p : Option Predicate) : ScanPlan :=
  match p with
  | none => .everyRow
  | some .always => .everyRow
  | some (.compare c) =>
    if !c.hasColumn then .constant
    else if c.relation ≠ .eq then .filter
    else
      match t.keyConstant? c with
      | none => .filter
      | some .null => .filter
      | some constant => .lookup constant
  | some _ => .filter

end Table

namespace Scan

/-- Changes the plan. -/
def setPlan (plan : ScanPlan) : Moving Scan Unit := do
  Moving.moveTo { (← Moving.mover) with plan := plan }

/-- Walks on by one row. -/
def nextRow : Moving Scan (Option Row) :=
  Moving.part Scan.walk (fun walk scan => { scan with walk := walk }) Walk.nextRow

/-- The next row that the predicate accepts, passing at most `fuel` rows. -/
def nextAccepted (p : Option Predicate) : (fuel : Nat) → Moving Scan (Option JointRow)
  | 0 => do
    setPlan .done
    pure none
  | fuel + 1 => do
    match ← nextRow with
    | none =>
      setPlan .done
      pure none
    | some row =>
      let row := (← Moving.mover).walk.table.jointRow row
      if ← Predicate.accepts p row then pure (some row) else nextAccepted p fuel

/-- The next row that the predicate accepts. -/
def next (p : Option Predicate) : Moving Scan (Option JointRow) := do
  let (scan, space) ← get
  nextAccepted p ((scan.walk.table.store space).rowCount + 1)

/-- The row whose key equals a constant.  The conversion to a key may have changed the constant,
so the predicate still has to accept the row. -/
def lookup (p : Option Predicate) (constant : Operand) : Moving Scan (Option JointRow) := do
  let table := (← Moving.mover).walk.table
  let key ← constant.toEntry table.schema.primaryColumn.type
  match ← Moving.still (table.find? key) with
  | none => pure none
  | some row =>
    let row := table.jointRow row
    return if ← Predicate.accepts p row then some row else none

/-- Makes the next row that the predicate accepts.  A lookup answers only to the first pull. -/
def produce (p : Option Predicate) (first : Bool) : Moving Scan (Option JointRow) := do
  match (← Moving.mover).plan with
  | .everyRow => next none
  | .filter => next p
  | .constant =>
    let accepted ← match p with
      | none => pure true
      | some p => do pure (← p.evaluate none).isTrue
    if accepted then
      setPlan .everyRow
      next none
    else
      setPlan .done
      pure none
  | .lookup constant =>
    setPlan .done
    if first then lookup p constant else pure none
  | .done => pure none

end Scan

end PageDb
