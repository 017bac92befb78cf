import PageDb.Config
import PageDb.Proofs.PageImage
import PageDb.Proofs.Store.Pinning

/-!
Stores that hold rows of one kind only.

`Shelf.Only` says of every row in memory, and of every row that a page file of the table decodes to,
that its entries are of some kind.  It asks for nothing else: keys may be of any type, the index need
not be in order, and what is recorded about pages need not be true.  Every operation keeps it, whether
it fails or not, as long as the entries that come from outside are of the kind.
-/

namespace PageDb

/-! ## Rows of a kind -/

/-- Whether the row of a slot, if it is in memory, is of a kind. -/
def Slot.Holds (kind : List Entry → Prop) : Slot → Prop
  | .resident row => kind row.entries
  | .evicted _ => True

/-- The page files of a table hold rows of a kind only. -/
structure Disk.Only (kind : List Entry → Prop) (database table : String) (d : Disk) : Prop where
  ordered : d.directory.Ordered
  rows : ∀ n image rows, d.directory.read? (PageFile.name database table n) = some image →
    PageImage.decode image = .ok rows → ∀ r ∈ rows, kind r.entries

/-- A store of a table whose rows in memory are of a kind. -/
structure Store.Only (kind : List Entry → Prop) (database table : String) (s : Store) : Prop where
  database : s.database = database
  table : s.table = table
  slots : ∀ index, s.index = some index → index.All (Slot.Holds kind)

/-- The rows in memory and in the page files are of a kind. -/
structure Shelf.Only (kind : List Entry → Prop) (database table : String) (sh : Shelf) : Prop where
  store : sh.store.Only kind database table
  disk : sh.disk.Only kind database table

variable {kind : List Entry → Prop} {database table : String}

/-- Page files that read the same hold the same rows. -/
theorem Disk.Only.congr {d d' : Disk} (h : d.Only kind database table)
    (hordered : d'.directory.Ordered)
    (hread : ∀ n, d'.directory.read? (PageFile.name database table n) =
      d.directory.read? (PageFile.name database table n)) : d'.Only kind database table := by
  refine ⟨hordered, fun n image rows himage => ?_⟩
  rw [hread n] at himage
  exact h.rows n image rows himage

/-- Reading files changes none. -/
theorem Disk.Only.keeps_read (file : String) :
    Action.Keeps (Disk.Only kind database table) (Disk.read file) fun _ => True := by
  intro d hd
  unfold Disk.read
  rw [Action.run_bind_ok (Action.run_get d)]
  split
  · exact ⟨hd, fun _ _ => trivial⟩
  · exact ⟨hd.congr hd.ordered fun _ => rfl, fun _ _ => trivial⟩

/-- A page file that is read decodes to rows of the kind. -/
theorem Disk.Only.keeps_read_page (n : Nat) :
    Action.Keeps (Disk.Only kind database table) (Disk.read (PageFile.name database table n))
      fun image => ∀ rows, PageImage.decode image = .ok rows → ∀ r ∈ rows, kind r.entries := by
  intro d hd
  refine ⟨(keeps_read _ d hd).1, fun image himage rows => hd.rows n image rows ?_⟩
  unfold Disk.read at himage
  rw [Action.run_bind_ok (Action.run_get d)] at himage
  split at himage
  · cases himage
  · rename_i data hdata
    cases himage
    exact hdata

/-- Writing rows of the kind to a page file, whether it succeeds or not. -/
theorem Disk.Only.keeps_write {rows : List Row} {image : Bytes}
    (himage : PageImage.encode rows = .ok image) (hrows : ∀ r ∈ rows, kind r.entries) (n : Nat) :
    Action.Keeps (Disk.Only kind database table)
      (Disk.write (PageFile.name database table n) image) fun _ => True := by
  intro d hd
  obtain ⟨r, d', hrun, hordered, hchanges, hfile⟩ :=
    Disk.write_run hd.ordered _ (PageFile.name_ne_temporary database table n _) image
  rw [hrun]
  refine ⟨⟨hordered, fun m data decoded hdata hdecode => ?_⟩, fun _ _ => trivial⟩
  by_cases hm : PageFile.name database table m = PageFile.name database table n
  · rw [hm] at hdata
    rcases hfile with ⟨-, hnew⟩ | ⟨-, hsame⟩
    · obtain rfl : image = data := Option.some.inj (hnew.symm.trans hdata)
      have hwritten : PageImage.decode image = .ok rows := (PageImage.reads_encode himage).decode
      obtain rfl : rows = decoded := Except.ok.inj (hwritten.symm.trans hdecode)
      exact hrows
    · exact hd.rows n data decoded (hsame ▸ hdata) hdecode
  · -- the draft is no page file, so another page file stays as it was
    have hother : ¬ Touched (PageFile.name database table n) (PageFile.name database table m) :=
      fun htouched => htouched.elim hm (PageFile.name_ne_temporary database table m _)
    exact hd.rows m data decoded (hchanges.others _ hother ▸ hdata) hdecode

namespace Store.Only

variable {s s' : Store}

theorem alike (h : s.Only kind database table) (halike : Alike s s') :
    s'.Only kind database table :=
  ⟨halike.database.trans h.database, halike.table.trans h.table, halike.index ▸ h.slots⟩

theorem withIndex (h : s.Only kind database table) {index : Index Slot}
    (hindex : index.All (Slot.Holds kind)) :
    Store.Only kind database table { s with index := some index } :=
  ⟨h.database, h.table, fun _ heq => Option.some.inj heq ▸ hindex⟩

theorem fileName (h : s.Only kind database table) (n : Nat) :
    s.fileName n = PageFile.name database table n := by
  rw [Store.fileName, h.database, h.table]

/-- A new store has no rows. -/
theorem newStore (config : Config) (database table : String) :
    (config.newStore database table).Only kind database table := by
  refine ⟨rfl, rfl, fun index hindex b hb => ?_⟩
  obtain rfl : ∅ = index := Option.some.inj hindex
  cases hb

end Store.Only

/-- The rows of a page that are in memory are of the kind. -/
theorem Index.All.pageRows {index : Index Slot} (h : index.All (Slot.Holds kind)) (page : Page) :
    ∀ r ∈ Store.pageRows index page, kind r.entries := by
  intro r hr
  obtain ⟨key, -, hrow⟩ := List.mem_filterMap.1 hr
  unfold Store.residentRow? at hrow
  split at hrow
  · rename_i row hget
    cases hrow
    exact h.get? hget
  · cases hrow

/-! ## Every operation keeps to rows of the kind -/

namespace Shelf

/-- Rows of a kind only, as an invariant. -/
def onlyKind (kind : List Entry → Prop) (database table : String) : Invariant where
  holds := Only kind database table
  store := Store.Only kind database table
  disk := Disk.Only kind database table
  index index := index.All (Slot.Holds kind)
  entries := kind

theorem slot_onlyKind {slot : Slot} : (onlyKind kind database table).slot slot ↔ slot.Holds kind := by
  cases slot <;> rfl

theorem onlyKind_loads : (onlyKind kind database table).Loads where
  store hsh := hsh.store
  withStore hsh hs := ⟨hs, hsh.disk⟩
  disk hsh := hsh.disk
  withDisk hsh hd := ⟨hsh.store, hd⟩
  live hs hlive := hs.slots _ hlive
  withIndex hs hindex := hs.withIndex hindex
  exchange hindex hslot hexchange := hindex.exchange (slot_onlyKind.1 hslot) hexchange
  written {s index page image} hs hindex himage := by
    rw [hs.fileName]
    exact Disk.Only.keeps_write himage (hindex.pageRows page) page.number
  victim _ _ := trivial
  unvisited hs _ := ⟨hs.database, hs.table, hs.slots⟩
  forgotten hs _ := ⟨hs.database, hs.table, hs.slots⟩
  cleaned hs := ⟨hs.database, hs.table, hs.slots⟩
  fetch hindex hfetch := slot_onlyKind.2 (hindex.fetch hfetch)
  read {s} hs n := by
    rw [hs.fileName]
    exact Disk.Only.keeps_read_page n
  brought hs _ _ _ _ := ⟨hs.database, hs.table, hs.slots⟩
  visited hs _ n := hs.alike (Store.alike_visit _ n _)
  put hindex hslot hput := hindex.put (slot_onlyKind.1 hslot) hput
  take hindex htake := ⟨(hindex.take htake).1, slot_onlyKind.2 (hindex.take htake).2⟩
  modify hindex hslot key := hindex.modify (slot_onlyKind.1 hslot) key
  opened {s} hs := by
    have hplaced : Store.Only kind database table { s with
        lastPage := s.lastPage + 1
        pages := s.pages.insert (s.lastPage + 1) { number := s.lastPage + 1 } } :=
      ⟨hs.database, hs.table, hs.slots⟩
    exact hplaced.alike (Store.alike_visit _ _ _)
  changed hs _ _ _ := ⟨hs.database, hs.table, hs.slots⟩
  anyAway _ := trivial
  numbered hs _ := ⟨hs.database, hs.table, hs.slots⟩
  unpinned hs := hs.alike (Store.alike_unpin _)

end Shelf

end PageDb
