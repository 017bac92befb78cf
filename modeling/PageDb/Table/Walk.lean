import PageDb.Table.Basic

/-!
Walks through a table in key order.

A walk remembers the last key it gave out and asks for the next greater one, so it sees rows that
are added ahead of it and skips rows that are removed there.
-/

namespace PageDb

/-- A walk through the keys of a table. -/
structure Walk where
  table : Table
  last : Option Entry := none
  ended : Bool := false
deriving DecidableEq

/-- Something that moves along while it looks at tables. -/
abbrev Moving (σ : Type) := Action (σ × Tablespace)

namespace Moving

variable {σ τ α : Type}

/-- Looks at tables only. -/
def still (action : Action Tablespace α) : Moving σ α :=
  action.onPart Prod.snd fun space s => (s.1, space)

/-- Moves a part. -/
def part (get : σ → τ) (set : τ → σ → σ) (action : Moving τ α) : Moving σ α :=
  action.onPart (fun s => (get s.1, s.2)) fun moved s => (set moved.1 s.1, moved.2)

/-- What moves. -/
def mover : Moving σ σ := do return (← get).1

/-- Replaces what moves. -/
def moveTo (s : σ) : Moving σ Unit := modify fun (_, space) => (s, space)

end Moving

namespace Walk

/-- The next key. -/
def nextKey : Moving Walk (Option Entry) := do
  let walk ← Moving.mover
  if walk.ended then pure none
  else
    match ← Moving.still (walk.table.nextKey? walk.last) with
    | some key =>
      Moving.moveTo { walk with last := some key }
      pure (some key)
    | none =>
      Moving.moveTo { walk with ended := true }
      pure none

/-- The next row, passing over at most `fuel` keys.  A key whose row is gone is passed over. -/
def nextRowWithin : (fuel : Nat) → Moving Walk (Option Row)
  | 0 => pure none
  | fuel + 1 => do
    match ← nextKey with
    | none => pure none
    | some key =>
      match ← Moving.still ((← Moving.mover).table.find? key) with
      | some row => pure (some row)
      | none => nextRowWithin fuel

/-- The next row.  Every key is passed at most once, so there is no need to pass more keys than
the table has. -/
def nextRow : Moving Walk (Option Row) := do
  let (walk, space) ← get
  nextRowWithin ((walk.table.store space).rowCount + 1)

/-- The rows to come, at most `fuel` of them; the first error ends the walk. -/
def rowsWithin : (fuel : Nat) → Moving Walk (List Row)
  | 0 => pure []
  | fuel + 1 => do
    match ← nextRow with
    | none => pure []
    | some row => return row :: (← rowsWithin fuel)

/-- All rows to come. -/
def rows : Moving Walk (List Row) := do
  let (walk, space) ← get
  rowsWithin ((walk.table.store space).rowCount + 1)

end Walk

namespace Table

/-- A walk from the first key on. -/
def walk (t : Table) : Walk := { table := t }

/-- Runs a walk of its own. -/
def walking {α : Type} (t : Table) (action : Moving Walk α) : Action Tablespace α :=
  ExceptT.mk fun space =>
    let (result, (_, space)) := action.run (t.walk, space)
    (result, space)

/-- All rows in key order. -/
def rows (t : Table) : Action Tablespace (List Row) := t.walking Walk.rows

end Table

end PageDb
