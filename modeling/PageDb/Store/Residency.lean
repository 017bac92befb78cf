import PageDb.Store.Basic

/-!
Moving pages between memory and disk.

A page that has changed is written before it is evicted; if that fails it stays.  A page is read
back when a row on it is asked for.
-/

namespace PageDb

namespace Shelf

/-- Writes the rows of a page in memory to its file. -/
def writePage (page : Page) : Action Shelf Unit := do
  let s ← getStore
  let index ← s.liveIndex
  let image ← PageImage.encode (Store.pageRows index page)
  onDisk (Disk.write (s.fileName page.number) image)

/-- Gives keys the slot of an evicted page. -/
def markEvicted (page : Nat) : List Entry → Action Shelf Unit
  | [] => pure ()
  | key :: rest => do
    let (_, index) ← (← getIndex).exchange key (.evicted page)
    setIndex index
    markEvicted page rest

/-- Evicts the page that was visited the longest ago, if one may be evicted and can be written.
The answer is whether a page left memory. -/
def evict : Action Shelf Bool := do
  let s ← getStore
  match s.replacer.victim? with
  | none => pure false
  | some victim =>
    match s.pages.get? victim with
    | none =>
      setStore { s with replacer := s.replacer.remove victim }
      pure false
    | some page =>
      let written ← if page.dirty then (writePage page).attempt else pure (.ok ())
      match written with
      | .error _ => pure false
      | .ok () =>
        markEvicted victim page.keys
        modifyStore fun s => s.forgetPage victim
        pure true

/-- Makes room for one more page, as far as possible. -/
def makeRoom : Action Shelf Unit := do
  let s ← getStore
  if s.cap ≤ s.pages.size then
    let _ ← evict

/-- Opens a new page; the answer is its number. -/
def addPage : Action Shelf Nat := do
  makeRoom
  modifyStore Store.openPage
  return (← getStore).lastPage

/-- Puts rows read from the file of a page into their slots; the answer is the page with them. -/
def reinstate (primary : Nat) : Page → List Row → Action Shelf Page
  | page, [] => pure page
  | page, row :: rest => do
    let row := row.placedOn page.number
    let key ← row.key primary
    let (_, index) ← (← getIndex).exchange key (.resident row)
    setIndex index
    reinstate primary (page.add key row.byteSize) rest

/-- Reads an evicted page back. -/
def resurrect (page primary : Nat) : Action Shelf Unit := do
  makeRoom
  let s ← getStore
  let image ← onDisk (Disk.read (s.fileName page))
  let rows ← PageImage.decode image
  let _ ← getIndex
  let restored ← reinstate primary { number := page } rows
  modifyStore fun s =>
    { s with pages := s.pages.insert page restored, resurrections := s.resurrections + 1 }
  modifyStore fun s => s.visit page false

/-- The number of the page that holds a key, which is in memory afterwards. -/
def resolve (key : Entry) (primary : Nat) : Action Shelf Nat := do
  match ← (← getIndex).fetch key with
  | .resident row => pure row.position
  | .evicted page =>
    resurrect page primary
    match ← (← getIndex).fetch key with
    | .resident row => pure row.position
    | .evicted _ => throw (.corruptPage (.rowMissingFromFile key page))

/-- Writes pages one after the other. -/
def writePages : List Page → Action Shelf Unit
  | [] => pure ()
  | page :: rest => do
    writePage page
    writePages rest

/-- Writes every page in memory, changed or not; the answer is how many there are. -/
def persist : Action Shelf Nat := do
  let s ← getStore
  let _ ← s.liveIndex
  writePages s.pages.values
  modifyStore fun s => { s with pages := s.pages.mapValues fun p => { p with dirty := false } }
  pure s.pages.size

end Shelf

end PageDb
