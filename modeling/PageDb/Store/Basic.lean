import PageDb.Disk.PageImage
import PageDb.Disk
import PageDb.Index
import PageDb.Store.Page
import PageDb.Store.Replacer

/-!
Stores: the paged rows of one table.

A store keeps an index from keys to slots.  The slot of a row holds the row while its page is in
memory, and the number of its page once that page has been evicted to its file.  Pages have a byte
budget; at most `cap` of them are meant to be in memory at once, and pinned pages are never
evicted.
-/

namespace PageDb

/-- Where a row is. -/
inductive Slot where
  | resident (row : Row)
  | evicted (page : Nat)
deriving DecidableEq

/-- The paged rows of one table. -/
structure Store where
  database : String
  table : String
  /-- How many bytes of row text a page may hold. -/
  budget : Nat
  /-- How many pages may be in memory before one is evicted. -/
  cap : Nat
  /-- The pages in memory. -/
  pages : SortedMap Nat Page := ∅
  /-- The page opened last, which takes new rows; zero before the first. -/
  lastPage : Nat := 0
  /-- Every key and its slot; none once the table has been dropped. -/
  index : Option (Index Slot) := some ∅
  replacer : Replacer := {}
  /-- How often an evicted page was read back. -/
  resurrections : Nat := 0

/-- A store and the disk its page files are on. -/
structure Shelf where
  store : Store
  disk : Disk

/-- The key of a row: its entry in the primary column. -/
def Row.key (r : Row) (primary : Nat) : Result Entry :=
  match r.entries[primary]? with
  | some key => .ok key
  | none => .error (.schemaMismatch (.noKeyColumn r.entries.length primary))

namespace Store

/-! ## What a store shows -/

/-- The number of pages opened so far, in memory or not. -/
def pageCount (s : Store) : Nat := s.lastPage

/-- The number of pages in memory. -/
def residentCount (s : Store) : Nat := s.pages.size

/-- The number of pinned pages. -/
def pinnedCount (s : Store) : Nat := (s.pages.values.filter Page.pinned).length

/-- The bytes of the rows in memory. -/
def residentBytes (s : Store) : Nat := s.pages.values.foldr (fun p bytes => p.size + bytes) 0

/-- The number of rows; none once dropped. -/
def rowCount (s : Store) : Nat :=
  match s.index with
  | some index => index.size
  | none => 0

/-- Whether the table has been dropped. -/
def isDropped (s : Store) : Bool := s.index.isNone

/-- The name of the file of a page. -/
def fileName (s : Store) (page : Nat) : String := PageFile.name s.database s.table page

/-- The index, as long as the table has not been dropped. -/
def liveIndex (s : Store) : Result (Index Slot) :=
  match s.index with
  | some index => .ok index
  | none => .error (.tableDropped s.table)

/-- The smallest key, or the smallest one greater than `after`. -/
def nextKey? (s : Store) (after : Option Entry) : Result (Option Entry) := do
  return (← s.liveIndex).nextKey? after

/-- All keys in ascending order. -/
def keys (s : Store) : Result (List Entry) := do
  return (← s.liveIndex).keys

/-- The row of a key, if its page is in memory. -/
def residentRow? (index : Index Slot) (key : Entry) : Option Row :=
  match index.get? key with
  | some (.resident row) => some row
  | _ => none

/-- The rows of a page in memory, in the order of its keys. -/
def pageRows (index : Index Slot) (page : Page) : List Row :=
  page.keys.filterMap (residentRow? index)

/-! ## Changes that cannot fail -/

/-- Records a visit to a page and pins it if asked to. -/
def visit (s : Store) (page : Nat) (pin : Bool) : Store :=
  let replacer := s.replacer.visit page
  match s.pages.get? page with
  | none => { s with replacer := replacer }
  | some p =>
    let p := { p with lastVisit := replacer.clock }
    if pin ∧ ¬ p.pinned then
      { s with
        replacer := replacer.setEvictable page false
        pages := s.pages.insert page { p with pinned := true } }
    else { s with replacer := replacer, pages := s.pages.insert page p }

/-- Opens the next page, empty. -/
def openPage (s : Store) : Store :=
  let page := s.lastPage + 1
  visit { s with lastPage := page, pages := s.pages.insert page { number := page } } page false

/-- Forgets a page that is in memory. -/
def forgetPage (s : Store) (page : Nat) : Store :=
  { s with pages := s.pages.erase page, replacer := s.replacer.remove page }

/-- Unpins one page. -/
def unpinPage (s : Store) (page : Nat) : Store :=
  { s with
    pages := s.pages.modify page fun p => { p with pinned := false }
    replacer := s.replacer.setEvictable page true }

/-- Unpins every page. -/
def unpin (s : Store) : Store :=
  ((s.pages.values.filter Page.pinned).map Page.number).foldl unpinPage s

/-- Releases everything in memory; from then on the table is dropped. -/
def drop (s : Store) : Store :=
  { s with pages := ∅, replacer := s.replacer.clear, index := none }

end Store

/-! ## Operations on the store of a shelf -/

namespace Shelf

/-- The store. -/
def getStore : Action Shelf Store := do return (← get).store

/-- Replaces the store. -/
def setStore (s : Store) : Action Shelf Unit := modify fun shelf => { shelf with store := s }

/-- Changes the store. -/
def modifyStore (f : Store → Store) : Action Shelf Unit :=
  modify fun shelf => { shelf with store := f shelf.store }

/-- Replaces the index. -/
def setIndex (index : Index Slot) : Action Shelf Unit :=
  modifyStore fun s => { s with index := some index }

/-- The index, as long as the table has not been dropped. -/
def getIndex : Action Shelf (Index Slot) := do
  let s ← getStore
  s.liveIndex

/-- Works on the disk. -/
def onDisk {α : Type} (action : Action Disk α) : Action Shelf α :=
  action.onPart Shelf.disk fun disk shelf => { shelf with disk := disk }

/-- Changes a page that has to be in memory, and marks it as changed. -/
def changePage (page : Nat) (f : Page → Page) : Action Shelf Unit := do
  let s ← getStore
  match s.pages.get? page with
  | none => throw (.pageNotResident page)
  | some p => setStore { s with pages := s.pages.insert page (f p).touched }

end Shelf

end PageDb
