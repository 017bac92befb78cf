import PageDb.Table.Changes

/-!
Joins of tables.

In general a join runs through all combinations of rows, the last table fastest.  A join predicate
that is a single equality of two columns, one of them primary, is answered by access to keys
instead: if both are primary and there are no other tables the two walks are merged, and otherwise
the row of the primary column is looked up for every combination of the others.
-/

namespace PageDb

/-- How a join finds its combinations of rows. -/
inductive JoinPlan where
  /-- All combinations of the rows of all tables. -/
  | product
  /-- The rows of `target` are looked up by column `column` of table `source`. -/
  | lookup (target source column : Nat)
  /-- The keys of two tables are walked in step. -/
  | merge
deriving DecidableEq, Repr

/-- Two walks in step. -/
structure Merge where
  left : Walk
  right : Walk
deriving DecidableEq

namespace Merge

/-- Walks on in the left table. -/
def nextLeft : Moving Merge (Option Entry) :=
  Moving.part Merge.left (fun walk m => { m with left := walk }) Walk.nextKey

/-- Walks on in the right table. -/
def nextRight : Moving Merge (Option Entry) :=
  Moving.part Merge.right (fun walk m => { m with right := walk }) Walk.nextKey

/-- Moves the walk that is behind until both are at the same key, at most `fuel` times. -/
def align : (fuel : Nat) → (left right : Option Entry) → Moving Merge (Option (Entry × Entry))
  | 0, _, _ => pure none
  | fuel + 1, some l, some r =>
    match l.compare r with
    | .eq => pure (some (l, r))
    | .lt => do align fuel (← nextLeft) (some r)
    | .gt => do align fuel (some l) (← nextRight)
  | _ + 1, _, _ => pure none

/-- The next pair of keys that are the same.  Each move passes a key, so there are no more moves
than keys. -/
def nextPair : Moving Merge (Option (Entry × Entry)) := do
  let left ← nextLeft
  let right ← nextRight
  let (m, space) ← get
  align ((m.left.table.store space).rowCount + (m.right.table.store space).rowCount + 2) left right

end Merge

/-- A join under way. -/
structure Join where
  tables : List Table
  plan : JoinPlan
  /-- The walks through the tables; none where rows are looked up. -/
  walks : List (Option Walk)
  merge : Option Merge := none
  /-- The row of each table in the combination made last. -/
  current : List (Option Row)
  /-- What is left to check of the join predicate. -/
  condition : Option Predicate
  seeded : Bool := false
  exhausted : Bool := false
deriving DecidableEq

/-- What one step of a join gives. -/
inductive Combination where
  | rows (rows : List Row)
  /-- A row is missing. -/
  | discarded
  | exhausted
deriving DecidableEq

namespace Join

/-- Whether a column is the primary one of its table. -/
def isPrimary (tables : List Table) (ref : ColumnRef) : Bool :=
  (tables[ref.table]?.map fun t => decide (ref.column = t.primaryIndex)).getD false

/-- How to join tables on the equality of two of their columns.  Columns that cannot be compared
are left to the evaluation of the predicate, which fails. -/
def planBy (tables : List Table) (left right : ColumnRef) : JoinPlan :=
  if left.table = right.table ∨ left.type.isNumeric ≠ right.type.isNumeric then .product
  else if isPrimary tables left ∧ isPrimary tables right ∧ tables.length = 2 then .merge
  else if isPrimary tables left then .lookup left.table right.table right.column
  else if isPrimary tables right then .lookup right.table left.table left.column
  else .product

/-- How to join tables on a predicate. -/
def planFor (tables : List Table) (p : Option Predicate) : JoinPlan :=
  match p.bind Predicate.comparison? with
  | some ⟨.column l, .eq, .column r⟩ =>
    let headings := tables.map Table.heading
    match Heading.resolve headings l, Heading.resolve headings r with
    | .ok left, .ok right => planBy tables left right
    | _, _ => .product
  | _ => .product

/-- A join of tables on a predicate.  Access by key decides the predicate. -/
def ofTables (tables : List Table) (p : Option Predicate) : Join :=
  let plan := planFor tables p
  let walks := tables.map fun t => some t.walk
  { tables := tables
    plan := plan
    walks := match plan with
      | .product => walks
      | .lookup target _ _ => walks.set target none
      | .merge => tables.map fun _ => none
    merge := match plan, tables with
      | .merge, [left, right] => some ⟨left.walk, right.walk⟩
      | _, _ => none
    current := tables.map fun _ => none
    condition := if plan = .product then p else some .always }

/-- The names and schemas of the tables. -/
def headings (j : Join) : List Heading := j.tables.map Table.heading

/-- The walk through the table at a place. -/
def walk? (j : Join) (i : Nat) : Option Walk := (j.walks[i]?).join

/-- The join with a row in the current combination. -/
def withRow (j : Join) (i : Nat) (row : Row) : Join := { j with current := j.current.set i (some row) }

/-- The join with a walk through the table at a place. -/
def withWalk (j : Join) (i : Nat) (walk : Walk) : Join :=
  { j with walks := j.walks.set i (some walk) }

/-- Changes the join. -/
def update (f : Join → Join) : Moving Join Unit := modify fun (j, space) => (f j, space)

/-- Walks on by one row in the table at a place. -/
def pull (i : Nat) (walk : Walk) : Moving Join (Option Row) :=
  Moving.part (fun _ => walk) (fun moved j => j.withWalk i moved) Walk.nextRow

/-- Takes the first row of each of `count` tables from place `i` on, where they are walked; false
if one of them is empty. -/
def seed : (count i : Nat) → Moving Join Bool
  | 0, _ => pure true
  | count + 1, i => do
    match (← Moving.mover).walk? i with
    | none => seed count (i + 1)
    | some walk =>
      match ← pull i walk with
      | none => pure false
      | some row =>
        update fun j => j.withRow i row
        seed count (i + 1)

/-- Starts the walk at a place again and takes its first row. -/
def restart (i : Nat) (table : Table) : Moving Join Bool := do
  let (j, space) ← get
  let (result, (walk, space)) := Walk.nextRow.run (table.walk, space)
  set (j, space)
  match ← (result : Result (Option Row)) with
  | none => pure false
  | some row =>
    update fun j => (j.withRow i row).withWalk i walk
    pure true

/-- Moves to the next combination, counting the places below `i` from the right: the last walk
that has a row left takes it, and those behind it start again.  False when none has. -/
def advance : (i : Nat) → Moving Join Bool
  | 0 => pure false
  | i + 1 => do
    let j ← Moving.mover
    match j.walk? i, j.tables[i]? with
    | some walk, some table =>
      match ← pull i walk with
      | some row =>
        update fun j => j.withRow i row
        pure true
      | none =>
        if (j.walks.take i).any Option.isSome then
          if ← restart i table then advance i else pure false
        else pure false
    | _, _ => advance i

/-- The row of each table, if all are there. -/
def currentRows (j : Join) : Combination :=
  match j.current.mapM id with
  | some rows => .rows rows
  | none => .discarded

/-- Ends the join. -/
def finish : Moving Join Combination := do
  update fun j => { j with exhausted := true }
  pure .exhausted

/-- The rows of keys, one table each; nothing if one of them is gone. -/
def fetch : List (Table × Entry) → Action Tablespace (Option (List Row))
  | [] => pure (some [])
  | (table, key) :: rest => do
    match ← table.find? key with
    | none => pure none
    | some row => return (← fetch rest).map (row :: ·)

/-- The next pair of rows of a merge. -/
def mergeStep (m : Merge) : Moving Join Combination := do
  match ← Moving.part (fun _ => m) (fun moved j => { j with merge := some moved }) Merge.nextPair with
  | none => finish
  | some (left, right) =>
    match ← Moving.still (fetch ((← Moving.mover).tables.zip [left, right])) with
    | some rows => pure (.rows rows)
    | none => pure .discarded

/-- Looks up the row that belongs to the current combination. -/
def lookupStep (target source column : Nat) : Moving Join Combination := do
  let j ← Moving.mover
  match (j.current[source]?).join, j.tables[target]? with
  | some row, some table =>
    let key := (row.entries[column]?).getD .null
    match ← Moving.still (table.find? key) with
    | none => pure .discarded
    | some found =>
      update fun j => j.withRow target found
      return (← Moving.mover).currentRows
  | _, _ => pure .discarded

/-- The next combination of rows of a join whose walks are not merged. -/
def walkStep : Moving Join Combination := do
  let j ← Moving.mover
  let advanced ←
    if j.seeded then advance j.tables.length
    else do
      update fun j => { j with seeded := true }
      seed j.tables.length 0
  if advanced then
    match j.plan with
    | .lookup target source column => lookupStep target source column
    | _ => return (← Moving.mover).currentRows
  else finish

/-- The next combination of rows. -/
def step : Moving Join Combination := do
  let j ← Moving.mover
  if j.exhausted then pure .exhausted
  else
    match j.merge with
    | some m => mergeStep m
    | none => walkStep

/-- The next joined row that the predicate accepts, trying at most `fuel` combinations. -/
def produceWithin (p : Option Predicate) : (fuel : Nat) → Moving Join (Option JointRow)
  | 0 => pure none
  | fuel + 1 => do
    match ← step with
    | .exhausted => pure none
    | .discarded => produceWithin p fuel
    | .rows rows =>
      let j ← Moving.mover
      let row := JointRow.ofRows j.headings rows
      if ← Predicate.accepts j.condition row then
        if ← Predicate.accepts p row then pure (some row) else produceWithin p fuel
      else produceWithin p fuel

/-- How many combinations of rows there are at most, with one step more for the end. -/
def combinations (j : Join) (space : Tablespace) : Nat :=
  (j.tables.map fun t => (t.store space).rowCount + 1).foldl (· * ·) 1 + 1

/-- Makes the next joined row that the predicate accepts. -/
def produce (p : Option Predicate) : Moving Join (Option JointRow) := do
  let (j, space) ← get
  produceWithin p (j.combinations space)

end Join

end PageDb
