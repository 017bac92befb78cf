import PageDb.Store.Residency

/-!
Rows in a store: insert, delete, update, get, and loading the pages of an earlier run.
-/

namespace PageDb

namespace Shelf

/-- The keys of rows that may be added together: none is in the index, and none repeats. -/
def newKeys (index : Index Slot) (primary : Nat) :
    (seen : SortedMap Entry Unit) → List Row → Result Unit
  | _, [] => .ok ()
  | seen, row :: rest => do
    let key ← row.key primary
    if index.contains key || seen.contains key then throw (.duplicateKey key)
    newKeys index primary (seen.insert key ()) rest

/-- Puts the rows of a loaded page into the index, as resident or evicted; the answer is the page
with them. -/
def loadRows (primary : Nat) (resident : Bool) : Page → List Row → Action Shelf Page
  | page, [] => pure page
  | page, row :: rest => do
    let row := row.placedOn page.number
    let key ← row.key primary
    let slot : Slot := if resident then .resident row else .evicted page.number
    setIndex (← (← getIndex).put key slot)
    loadRows primary resident (if resident then page.add key row.byteSize else page) rest

/-- Adds a page read from disk as the next page.  While there is room the page stays in memory,
otherwise its rows are evicted from the start; the answer is whether it stays. -/
def insertPage (rows : List Row) (primary : Nat) : Action Shelf Bool := do
  newKeys (← getIndex) primary ∅ rows
  let s ← getStore
  let number := s.lastPage + 1
  let resident := decide (s.pages.size < s.cap)
  let page ← loadRows primary resident { number := number } rows
  modifyStore fun s => { s with lastPage := number }
  if resident then
    modifyStore fun s => { s with pages := s.pages.insert number page }
    modifyStore fun s => s.visit number false
  pure resident

/-- The page a new row of `size` bytes goes to: the open one if the row fits on it. -/
def pageFor (size : Nat) : Action Shelf Nat := do
  let s ← getStore
  match s.pages.get? s.lastPage with
  | some page => if page.fits size s.budget then pure s.lastPage else addPage
  | none => addPage

/-- Adds a row.  With `pin` its page stays in memory until it is unpinned. -/
def insertRow (entries : List Entry) (primary : Nat) (pin : Bool) : Action Shelf Unit := do
  let row : Row := { entries := entries }
  let key ← row.key primary
  if (← getIndex).contains key then throw (.duplicateKey key)
  let size := row.byteSize
  let page ← pageFor size
  setIndex (← (← getIndex).put key (.resident (row.placedOn page)))
  changePage page fun p => p.add key size
  modifyStore fun s => s.visit page pin

/-- Removes the row of a key. -/
def deleteRow (key : Entry) (primary : Nat) (pin : Bool) : Action Shelf Unit := do
  let page ← resolve key primary
  let (slot, index) ← (← getIndex).take key
  setIndex index
  let size := match slot with
    | .resident row => row.byteSize
    | .evicted _ => 0
  changePage page fun p => p.remove key size
  modifyStore fun s => s.visit page pin

/-- The key that assignments give to the row of `key`, if they change it: the last value assigned
to the primary column that is another key.  No such value may be in the index. -/
def assignedKey (index : Index Slot) (key : Entry) (primary : Nat) :
    List (Nat × Entry) → Result (Option Entry)
  | [] => .ok none
  | (column, value) :: rest =>
    if column = primary ∧ ¬ value.same key then
      if index.contains value then .error (.duplicateKey value)
      else do
        let later ← assignedKey index key primary rest
        return some (later.getD value)
    else assignedKey index key primary rest

/-- Assigns entries from left to right. -/
def assign (entries : List Entry) (assignments : List (Nat × Entry)) : List Entry :=
  assignments.foldl (fun entries (column, value) => entries.set column value) entries

/-- Sets the columns `targets` of the row of a key to `values`.  A row whose primary column
changes is found under its new key from then on. -/
def updateRow (key : Entry) (primary : Nat) (targets : List Nat) (values : List Entry)
    (pin : Bool) : Action Shelf Unit := do
  if targets.length ≠ values.length then
    throw (.lengthMismatch targets.length values.length)
  let assignments := targets.zip values
  let page ← resolve key primary
  let index ← getIndex
  let newKey ← assignedKey index key primary assignments
  match ← index.fetch key with
  | .evicted _ => throw (.corruptPage (.rowMissing key page))
  | .resident row =>
    match targets.find? fun column => decide (row.entries.length ≤ column) with
    | some column => throw (.schemaMismatch (.noColumn row.entries.length column))
    | none =>
      let changed := { row with entries := assign row.entries assignments }
      setIndex (index.modify key fun _ => .resident changed)
      if ((← getStore).pages.get? page).isNone then throw (.pageNotResident page)
      match newKey with
      | some new =>
        let (slot, rest) ← (← getIndex).take key
        setIndex rest
        setIndex (← rest.put new slot)
        changePage page fun p => p.rename key new row.byteSize changed.byteSize
      | none => changePage page fun p => p.resize row.byteSize changed.byteSize
      modifyStore fun s => s.visit page pin

/-- The row of a key. -/
def getRow (key : Entry) (primary : Nat) : Action Shelf Row := do
  let page ← resolve key primary
  match ← (← getIndex).fetch key with
  | .evicted _ => throw (.corruptPage (.rowMissing key page))
  | .resident row =>
    modifyStore fun s => s.visit page false
    pure row

end Shelf

end PageDb
