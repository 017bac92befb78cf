import PageDb.Proofs.Store.Loading
import PageDb.Proofs.Table.Filing

/-!
Loading a table from its page files.

`Table.Archived` says that the files of a directory hold given rows, page by page.  Loading the pages
in order brings the rows back one page after the other, so in the end the table holds what was
archived: the same keys, rows and positions, whatever the settings are.
-/

namespace PageDb

namespace Table

/-- Another handle to a table of the same names and schema. -/
def withNumber (t : Table) (number : Nat) : Table := { t with number := number }

/-- The page files up to the last page hold the rows of a table. -/
structure Archived (t : Table) (target : SortedMap Entry Row) (last : Nat) (d : Directory) :
    Prop where
  ordered : d.Ordered
  there : d.files.isSome
  lists : Disk.Lists t.database t.name last d
  pages : ∀ n, 0 < n → n ≤ last → ∃ image rows,
    d.read? (PageFile.name t.database t.name n) = some image ∧ PageImage.decode image = .ok rows ∧
      Fills t.keyType t.primaryIndex target n (rows.map fun r => r.placedOn n)
  ascending : target.Ascending (Entry.fits t.keyType)
  keys : ∀ b ∈ target.toList, b.1 = b.2.keyAt t.primaryIndex
  positions : ∀ b ∈ target.toList, 0 < b.2.position ∧ b.2.position ≤ last

variable {t : Table} {target : SortedMap Entry Row} {last n : Nat} {d d' : Directory}
  {s : Tablespace}

/-- The archive is there as long as the page files are spared. -/
theorem Archived.spared (h : t.Archived target last d)
    (hspared : Directory.SparesPages t.database t.name d d') : t.Archived target last d' := by
  refine ⟨hspared.ordered, hspared.there, ⟨?_, ?_⟩, ?_, h.ascending, h.keys, h.positions⟩
  · intro n hpos hle
    obtain ⟨image, -, himage, -⟩ := h.pages n hpos hle
    rw [← hspared.read n] at himage
    exact Directory.mem_names_of_read? himage
  · intro f hf n hn
    exact h.lists.only f (hspared.numbered f hf n hn) n hn
  · intro n hpos hle
    rw [hspared.read n]
    exact h.pages n hpos hle

/-- An archive does not depend on the handle. -/
theorem Archived.withNumber (h : t.Archived target last d) (number : Nat) :
    (t.withNumber number).Archived target last d :=
  ⟨h.ordered, h.there, h.lists, h.pages, h.ascending, h.keys, h.positions⟩

/-- The file of a page that has been written has the rows of the page. -/
theorem Backed.fills (h : t.Backed s) (hsaved : Shelf.Saved t.keyType t.primaryIndex (t.shelf s))
    (hpos : 0 < n) (hle : n ≤ (t.store s).lastPage) :
    ∃ image rows, s.disk.directory.read? (PageFile.name t.database t.name n) = some image ∧
      PageImage.decode image = .ok rows ∧
        Fills t.keyType t.primaryIndex (t.contents s) n (rows.map fun r => r.placedOn n) := by
  obtain ⟨hfiled, rows, hrows, hfills⟩ := hsaved n hpos hle
  have hname : (t.store s).fileName n = PageFile.name t.database t.name n := h.stands.fileName n
  rcases Shelf.stored?_eq_some_iff.1 hrows with ⟨hnone, -⟩ | ⟨image, decoded, himage, hdecode, rfl⟩
  · rw [Shelf.Filed, hnone] at hfiled
    cases hfiled
  · rw [Shelf.image?, show (t.shelf s).store.fileName n = _ from hname] at himage
    exact ⟨image, decoded, himage, hdecode, hfills⟩

/-- A row lies on one of the pages. -/
theorem Stands.position (h : t.Stands s) {b : Entry × Row} (hb : b ∈ (t.contents s).toList) :
    0 < b.2.position ∧ b.2.position ≤ (t.store s).lastPage := by
  have hget := SortedMap.get?_of_mem (Entry.orderedOn_fits _) h.ascending hb
  exact (h.sound.agree.keyed_of_get?_contentsOf (h.ascending.holds b hb) hget).2.2

/-- A table whose pages have all been written is archived. -/
theorem Backed.archived (h : t.Backed s)
    (hsaved : Shelf.Saved t.keyType t.primaryIndex (t.shelf s))
    (hlists : Disk.Lists t.database t.name (t.store s).lastPage s.disk.directory) :
    t.Archived (t.contents s) (t.store s).lastPage s.disk.directory :=
  ⟨h.stands.ordered, h.there, hlists, fun _ hpos hle => h.fills hsaved hpos hle, h.stands.ascending,
    fun b hb => (h.binds b hb).key, fun _ hb => h.stands.position hb⟩

/-- The pages up to `n` have been loaded. -/
structure HasLoaded (t : Table) (target : SortedMap Entry Row) (d : Directory) (n : Nat)
    (s : Tablespace) : Prop where
  stands : t.Stands s
  directory : s.disk.directory = d
  lastPage : (t.store s).lastPage = n
  rows : ∀ b, b ∈ (t.contents s).toList ↔ b ∈ target.toList ∧ b.2.position ≤ n

namespace HasLoaded

/-- Before the first page nothing has been loaded. -/
theorem create (config : Config) (h : t.Archived target last s.disk.directory) :
    t.HasLoaded target s.disk.directory 0 (s.create config t) := by
  refine ⟨stands_create config t h.ordered, rfl, ?_, ?_⟩
  · exact congrArg (fun sh => sh.store.lastPage) (shelf_create s config t)
  · intro b
    rw [contents_create]
    constructor
    · intro hb
      cases hb
    · rintro ⟨hb, hposition⟩
      have hpos := (h.positions b hb).1
      omega

/-- Reading a file loads nothing yet. -/
theorem onDisk (h : t.HasLoaded target d n s) {disk : Disk} (hdirectory : disk.directory = d) :
    t.HasLoaded target d n { s with disk := disk } := by
  have hread (m : Nat) : disk.directory.read? (PageFile.name t.database t.name m) =
      s.disk.directory.read? (PageFile.name t.database t.name m) := by
    rw [hdirectory, h.directory]
  have hordered : disk.directory.Ordered := by
    rw [hdirectory, ← h.directory]
    exact h.stands.ordered
  obtain ⟨hstands, hcontents⟩ :=
    @Stands.unaffected t s h.stands { s with disk := disk } rfl hordered hread
  refine ⟨hstands, hdirectory, h.lastPage, fun b => ?_⟩
  rw [hcontents]
  exact h.rows b

/-- The keys of the next page are new. -/
theorem absent (h : t.HasLoaded target d n s) (ha : t.Archived target last d) {rows : List Row}
    (hfills : Fills t.keyType t.primaryIndex target (n + 1) rows) {r : Row} (hr : r ∈ rows) :
    (t.contents s).get? (r.keyAt t.primaryIndex) = none := by
  have hP := Entry.orderedOn_fits t.keyType
  have hkey : (r.keyAt t.primaryIndex).fits t.keyType := (hfills.keyed r hr).fits
  cases hrow : (t.contents s).get? (r.keyAt t.primaryIndex) with
  | none => rfl
  | some row =>
    -- the archive would bind the key to rows on two pages
    obtain ⟨k, hk, hcompare⟩ := (SortedMap.get?_eq_some_iff hP h.stands.ascending hkey).1 hrow
    obtain ⟨htarget, hposition⟩ := (h.rows (k, row)).1 hk
    have hfound : target.get? (r.keyAt t.primaryIndex) = some row :=
      (SortedMap.get?_eq_some_iff hP ha.ascending hkey).2 ⟨k, htarget, hcompare⟩
    have hbinding : (r.keyAt t.primaryIndex, r) ∈ target.toList ∧ r.position = n + 1 :=
      (hfills.mem_bindings ha.keys).1 (List.mem_map.2 ⟨r, hr, rfl⟩)
    have hlater : r.position = n + 1 := hbinding.2
    rw [SortedMap.get?_of_mem hP ha.ascending hbinding.1] at hfound
    cases hfound
    have hearlier : r.position ≤ n := hposition
    omega

/-- The rows of the next page may be added together. -/
theorem fresh (h : t.HasLoaded target d n s) (ha : t.Archived target last d) {rows : List Row}
    (hfills : Fills t.keyType t.primaryIndex target (n + 1) (rows.map fun r => r.placedOn (n + 1))) :
    Fresh t.keyType t.primaryIndex (t.shelf s).index rows := by
  have hplaced {r : Row} (hr : r ∈ rows) :
      r.placedOn (n + 1) ∈ rows.map fun r => r.placedOn (n + 1) := List.mem_map.2 ⟨r, hr, rfl⟩
  refine ⟨fun r hr => ?_, fun r hr => ?_, List.pairwise_map.1 hfills.distinct⟩
  · have hkeyed : (r.placedOn (n + 1)).Keyed t.keyType t.primaryIndex := hfills.keyed _ (hplaced hr)
    exact hkeyed
  have hnone := h.absent ha hfills (hplaced hr)
  rw [← SortedMap.contains_eq_false_iff, Shelf.contains_rows t.primaryIndex,
    SortedMap.contains_eq_false_iff]
  exact hnone

/-- Loading the next page brings back its rows and no others. -/
theorem insertPage (h : t.HasLoaded target d n s) (ha : t.Archived target last d) {image : Bytes}
    {rows : List Row} (himage : d.read? (PageFile.name t.database t.name (n + 1)) = some image)
    (hdecode : PageImage.decode image = .ok rows)
    (hfills : Fills t.keyType t.primaryIndex target (n + 1) (rows.map fun r => r.placedOn (n + 1))) :
    ∃ resident s', (t.onStore (Shelf.insertPage rows t.primaryIndex)).run s = (.ok resident, s') ∧
      t.HasLoaded target d (n + 1) s' := by
  have hlast : (t.shelf s).store.lastPage = n := h.lastPage
  have hfile : (t.shelf s).stored? (n + 1) = some (rows.map fun r => r.placedOn (n + 1)) := by
    refine Shelf.stored?_eq_some_iff.2 (.inr ⟨image, rows, ?_, hdecode, rfl⟩)
    show s.disk.directory.read? ((t.store s).fileName (n + 1)) = some image
    rw [h.stands.fileName, h.directory]
    exact himage
  obtain ⟨resident, sh, hrun, hloaded⟩ :=
    h.stands.sound.insertPage (by rwa [hlast]) (h.fresh ha hfills)
  obtain ⟨s', hrun', hshelf, hstands, -⟩ := h.stands.onStore hrun hloaded.sound hloaded.frame
  have hcontents : t.contents s' = (t.contents s).insertAll
      ((rows.map fun r => r.placedOn (n + 1)).map fun r => (r.keyAt t.primaryIndex, r)) := by
    rw [contents, hshelf, hloaded.rows, hlast, List.map_map]
    rfl
  refine ⟨resident, s', hrun', hstands, ?_, ?_, fun b => ?_⟩
  · have hdirectory := hloaded.directory
    rw [← hshelf] at hdirectory
    exact hdirectory.trans h.directory
  · show (t.shelf s').store.lastPage = n + 1
    rw [hshelf, hloaded.lastPage, hlast]
  · have hnew : ∀ b ∈ (rows.map fun r => r.placedOn (n + 1)).map (fun r => (r.keyAt t.primaryIndex, r)),
        (t.contents s).get? b.1 = none := by
      intro b hb
      obtain ⟨r, hr, rfl⟩ := List.mem_map.1 hb
      exact h.absent ha hfills hr
    rw [hcontents, SortedMap.mem_insertAll_of_new (Entry.orderedOn_fits t.keyType)
      h.stands.ascending hfills.distinct_bindings hnew,
      hfills.mem_bindings ha.keys, h.rows b, ← and_or_left]
    refine and_congr_right fun _ => ?_
    omega

/-- Each page file is read and its page added. -/
theorem loadPages (h : t.HasLoaded target d n s) (ha : t.Archived target last d) {count : Nat}
    (hcount : n + count = last) :
    ∃ s', (t.loadPages (n + 1) (List.range' (n + 1) count)).run s = (.ok (), s') ∧
      t.HasLoaded target d last s' := by
  induction count generalizing n s with
  | zero => exact ⟨s, rfl, hcount ▸ h⟩
  | succ count ih =>
    obtain ⟨image, rows, himage, hdecode, hfills⟩ := ha.pages (n + 1) (by omega) (by omega)
    have hread : (Disk.read (PageFile.name t.database t.name (n + 1))).run s.disk =
        (.ok image, { s.disk with reads := s.disk.reads + 1 }) := by
      apply Disk.read_run
      rw [h.directory]
      exact himage
    have hdisk : (Tablespace.onDisk (Disk.read (PageFile.name t.database t.name (n + 1)))).run s =
        (.ok image, { s with disk := { s.disk with reads := s.disk.reads + 1 } }) := by
      rw [Tablespace.onDisk, Action.run_onPart, hread]
    -- the next number is the one due, so no empty page comes before it
    have hgap : (t.openGap (n + 1 - (n + 1))).run s = (.ok (), s) := by
      rw [Nat.sub_self]
      rfl
    have hafter : t.HasLoaded target d n { s with disk := { s.disk with reads := s.disk.reads + 1 } } :=
      h.onDisk h.directory
    obtain ⟨resident, s₁, hrun, h₁⟩ := hafter.insertPage ha himage hdecode hfills
    obtain ⟨s', hrest, h'⟩ := ih h₁ (by omega)
    refine ⟨s', ?_, h'⟩
    rw [List.range'_succ, Table.loadPages, Action.run_bind_ok hgap, Action.run_bind_ok hdisk, hdecode,
      Action.run_bind_ok (Action.run_lift _ _), Action.run_bind_ok hrun, Nat.max_self]
    exact hrest

/-- After the last page the table holds what was archived. -/
theorem contents (h : t.HasLoaded target d last s) (ha : t.Archived target last d) :
    t.contents s = target := by
  refine SortedMap.Ascending.ext (Entry.orderedOn_fits t.keyType) h.stands.ascending ha.ascending ?_
  intro b
  rw [h.rows b]
  constructor
  · intro hb
    exact hb.1
  · intro hb
    exact ⟨hb, (ha.positions b hb).2⟩

end HasLoaded

/-- Loading starts with the first page that is listed. -/
theorem run_recover {pages : List Nat}
    (h : (Disk.pageNumbers t.database t.name).run s.disk = (.ok pages, s.disk)) :
    t.recover.run s = (t.loadPages 1 pages).run s := by
  have hpages : (Tablespace.onDisk (Disk.pageNumbers t.database t.name)).run s = (.ok pages, s) := by
    rw [Tablespace.onDisk, Action.run_onPart, h]
  rw [Table.recover, Action.run_bind_ok hpages]

/-- Loading the pages that a directory lists brings the archive back. -/
theorem Archived.recover (h : t.Archived target last s.disk.directory)
    (hlast : last < PageFile.numberLimit) (config : Config) :
    ∃ s', t.recover.run (s.create config t) = (.ok (), s') ∧
      t.HasLoaded target s.disk.directory last s' := by
  have hpages := Disk.pageNumbers_run h.ordered h.there hlast h.lists
  rw [run_recover (s := s.create config t) hpages]
  exact (HasLoaded.create config h).loadPages h (Nat.zero_add last)

/-! ## Persisting and reopening -/

/-- What a table shows: its keys, the row of each key with its entries and its position, and how
many rows and pages there are. -/
structure Shows (t : Table) (rows : SortedMap Entry Row) (pages : Nat) (s : Tablespace) : Prop where
  keys : (t.keys.run s).1 = .ok rows.keys
  get : ∀ key, ((t.get key).run s).1 = answerTo rows key
  rowCount : (t.store s).rowCount = rows.size
  pageCount : (t.store s).pageCount = pages

theorem Stands.shows (h : t.Stands s) : t.Shows (t.contents s) (t.store s).lastPage s where
  keys := by rw [h.keys]
  get := h.get
  rowCount := h.rowCount
  pageCount := rfl

/-- A table that has been created where it has no page files shows the same after all pages have been
written and a new handle has been opened, under any settings.  Page numbers take four bytes. -/
theorem shows_after_reopening {config : Config} {s₀ s s' space : Tablespace} {count : Nat}
    (hproper : t.schema.Proper)
    (hfree : Directory.FreeOfPages t.database t.name s₀.disk.directory)
    (hruns : t.Runs (s₀.create config t) s) (hpersist : t.persist.run s = (.ok count, s'))
    (hpages : (t.store s').pageCount < PageFile.numberLimit)
    (hspared : Directory.SparesPages t.database t.name s'.disk.directory space.disk.directory)
    (number : Nat) (config' : Config) :
    ∃ rows pages s'', t.Shows rows pages s' ∧
      (t.withNumber number).recover.run (space.create config' (t.withNumber number)) = (.ok (), s'') ∧
      (t.withNumber number).Shows rows pages s'' := by
  have hfiling : t.Filing s := (filing_create config hfree).runs hproper hruns
  obtain ⟨hfiling', hsaved, hlists⟩ := hfiling.persist hproper hpersist
  have harchived := (hfiling'.backed.archived hsaved hlists).spared hspared
  have hreopened := harchived.withNumber number
  obtain ⟨s'', hrun, hloaded⟩ := hreopened.recover hpages config'
  refine ⟨_, _, s'', hfiling'.stands.shows, hrun, ?_⟩
  have hshows := hloaded.stands.shows
  rwa [hloaded.contents hreopened, hloaded.lastPage] at hshows

/-- A table of numbered items. -/
def stock : Table where
  number := 1
  database := "shop"
  name := "items"
  schema := ⟨[({ name := "id", type := .int } : Column).asPrimary, { name := "label", type := .text }], 0⟩

/-- Calls that open two pages; a row of the first page changes after the page has been read back, and
one of the second is removed. -/
def stockCalls : List TableCall :=
  [.insert [.int 7, .text "box"] false, .insertLiterals none ["-3", "tape"] true,
    .insert [.int 12, .text "twine"] false, .unpin, .update (.int 7) [("label", .text "crate")] false,
    .delete (.int 12) false, .get (.int (-3))]

/-- A tablespace on a device that refuses the first write. -/
def reluctant : Tablespace := { disk := { outages := [true] } }

/-- The table after the calls, with room for one page in memory. -/
def stocked : Tablespace :=
  stockCalls.foldl (fun s c => ((stock.call c).run s).2)
    (reluctant.create { budget := 12, cap := 1 } stock)

/-- The table after all its pages have been written. -/
def stockWritten : Tablespace := (stock.persist.run stocked).2

/-- The three pages of the table come back for a handle with other settings: one of them had been
written before its row changed, and one has no row any more. -/
theorem shows_after_reopening_stock :
    ∃ rows pages s'', stock.Shows rows pages stockWritten ∧
      (stock.withNumber 4).recover.run
          (stockWritten.create { budget := 90, cap := 2 } (stock.withNumber 4)) = (.ok (), s'') ∧
      (stock.withNumber 4).Shows rows pages s'' ∧ rows.keys = [.int (-3), .int 7] ∧ pages = 3 := by
  have hproper : stock.schema.Proper := ⟨_, rfl, rfl⟩
  have hfree : Directory.FreeOfPages stock.database stock.name reluctant.disk.directory :=
    ⟨Directory.ordered_empty, rfl, fun _ hf => nomatch hf⟩
  have hruns : stock.Runs (reluctant.create { budget := 12, cap := 1 } stock) stocked :=
    Runs.refl.calls (by
      simp [stockCalls, TableCall.Typed, Entry.fits, Entry.type?, keyType, stock, Schema.primaryColumn,
        Column.asPrimary])
  obtain ⟨hcount, hpages, hkeys⟩ : (stock.persist.run stocked).1 = .ok 2 ∧
      (stock.store stockWritten).pageCount = 3 ∧
      (stock.keys.run stockWritten).1 = .ok [.int (-3), .int 7] := by decide +kernel
  have hpersist : stock.persist.run stocked = (.ok 2, stockWritten) := by
    rw [stockWritten, ← hcount]
    exact Prod.mk.eta.symm
  have hfiling : stock.Filing stockWritten :=
    (((filing_create _ hfree).runs hproper hruns).persist hproper hpersist).1
  have hspared : Directory.SparesPages stock.database stock.name stockWritten.disk.directory
      stockWritten.disk.directory := Directory.sparesPages_self hfiling.stands.ordered hfiling.there _ _
  have hlimit : (stock.store stockWritten).pageCount < PageFile.numberLimit := by
    rw [hpages, PageFile.numberLimit]
    omega
  obtain ⟨rows, pages, s'', hshows, hrun, hshows'⟩ := shows_after_reopening hproper hfree hruns
    hpersist hlimit hspared 4 { budget := 90, cap := 2 }
  refine ⟨rows, pages, s'', hshows, hrun, hshows', ?_, ?_⟩
  · exact Except.ok.inj (hshows.keys.symm.trans hkeys)
  · exact hshows.pageCount.symm.trans hpages

end Table

end PageDb
