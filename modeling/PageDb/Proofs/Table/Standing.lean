import PageDb.Proofs.Store.Rows
import PageDb.Table.Changes

/-!
The tables of one tablespace.

Every table has a store of its own, and all stores share the disk.  `Table.contents` is what a table
holds, and `Table.Stands` says that it is there with a sound store.  An operation on one table
leaves the contents of every table apart from it alone, since their page files have other names.
-/

namespace PageDb

namespace Table

/-- The store of the table, with the disk. -/
def shelf (t : Table) (s : Tablespace) : Shelf := ⟨t.store s, s.disk⟩

/-- The type of the keys. -/
def keyType (t : Table) : ColumnType := t.schema.primaryColumn.type

/-- The rows of the table by key, in memory or not. -/
def contents (t : Table) (s : Tablespace) : SortedMap Entry Row := (t.shelf s).rows t.primaryIndex

/-- The table is there and its store is sound. -/
structure Stands (t : Table) (s : Tablespace) : Prop where
  database : (t.store s).database = t.database
  table : (t.store s).table = t.name
  sound : Shelf.Sound t.keyType t.primaryIndex 0 (t.shelf s)

/-- Tables that share neither a store nor a page file. -/
structure Apart (t u : Table) : Prop where
  number : t.number ≠ u.number
  stem : PageFile.tableStem t.database t.name ≠ PageFile.tableStem u.database u.name

variable {t u : Table} {s : Tablespace}

theorem Stands.fileName (h : t.Stands s) (n : Nat) :
    (t.store s).fileName n = PageFile.name t.database t.name n := by
  rw [Store.fileName, h.database, h.table]

theorem Stands.ordered (h : t.Stands s) : s.disk.directory.Ordered := h.sound.ordered

/-- No page file of one table is a file that writing pages of the other one works on. -/
theorem Apart.not_owns (h : t.Apart u) (ht : t.Stands s) (hu : u.Stands s) {store : Store}
    (hname : ∀ n, store.fileName n = (t.store s).fileName n) (n : Nat) :
    ¬ Shelf.Owns store ((u.store s).fileName n) := by
  rintro ⟨m, -, -, heq | heq⟩
  · rw [hname, ht.fileName, hu.fileName] at heq
    exact h.stem (PageFile.tableStem_eq_of_name_eq heq).symm
  · rw [hu.fileName] at heq
    exact PageFile.name_ne_temporary _ _ n _ heq

theorem run_onStore {α : Type} (t : Table) (action : Action Shelf α) (s : Tablespace) :
    (t.onStore action).run s = ((action.run (t.shelf s)).1,
      { stores := s.stores.insert t.number (action.run (t.shelf s)).2.store
        disk := (action.run (t.shelf s)).2.disk }) := rfl

/-- The tablespace after the shelf of a table has changed. -/
def withShelf (t : Table) (s : Tablespace) (sh : Shelf) : Tablespace :=
  { stores := s.stores.insert t.number sh.store, disk := sh.disk }

theorem shelf_withShelf (t : Table) (s : Tablespace) (sh : Shelf) :
    t.shelf (t.withShelf s sh) = sh := by
  simp only [shelf, store, withShelf, SortedMap.get?_insert_self, Option.getD_some]

theorem store_withShelf_of_ne (h : t.number ≠ u.number) (s : Tablespace) (sh : Shelf) :
    u.store (t.withShelf s sh) = u.store s := by
  have hne : compare u.number t.number ≠ .eq := fun heq =>
    h (Std.LawfulEqOrd.eq_of_compare heq).symm
  simp only [store, withShelf, SortedMap.get?_insert_of_ne _ _ hne]

theorem Stands.ascending (h : t.Stands s) : (t.contents s).Ascending (Entry.fits t.keyType) :=
  h.sound.agree.ascending_contentsOf

/-- A table does not notice what happens to other stores and to files that are not its own. -/
theorem Stands.unaffected (h : t.Stands s) {s' : Tablespace} (hstore : t.store s' = t.store s)
    (hordered : s'.disk.directory.Ordered)
    (hread : ∀ n, s'.disk.directory.read? (PageFile.name t.database t.name n) =
      s.disk.directory.read? (PageFile.name t.database t.name n)) :
    t.Stands s' ∧ t.contents s' = t.contents s := by
  have himage (n : Nat) : s'.disk.directory.read? ((t.shelf s).store.fileName n) =
      (t.shelf s).image? n := by
    have hname : (t.shelf s).store.fileName n = PageFile.name t.database t.name n := h.fileName n
    rw [Shelf.image?, hname]
    exact hread n
  obtain ⟨hsound, hrows⟩ := h.sound.withDisk hordered himage
  have hshelf : t.shelf s' = { t.shelf s with disk := s'.disk } := by
    rw [shelf, hstore]
    rfl
  refine ⟨⟨?_, ?_, ?_⟩, ?_⟩
  · rw [hstore, h.database]
  · rw [hstore, h.table]
  · rw [hshelf]
    exact hsound
  · rw [contents, hshelf]
    exact hrows

/-- What a change of the shelf of a table does, if it keeps the other stores. -/
theorem Stands.advance (h : t.Stands s) {s' : Tablespace}
    (hstores : ∀ u : Table, t.number ≠ u.number → u.store s' = u.store s)
    (hsound : Shelf.Sound t.keyType t.primaryIndex 0 (t.shelf s'))
    (hframe : Shelf.Frame (t.shelf s) (t.shelf s')) :
    t.Stands s' ∧
      ∀ u, u.Stands s → t.Apart u → u.Stands s' ∧ u.contents s' = u.contents s := by
  refine ⟨⟨hframe.database.trans h.database, hframe.table.trans h.table, hsound⟩, ?_⟩
  intro u hu hapart
  refine hu.unaffected (hstores u hapart.number) hsound.ordered fun n => ?_
  have hothers := hframe.disk.others _ (hapart.not_owns h hu hframe.fileName n)
  rwa [hu.fileName] at hothers

/-- What an operation on the store of a table does to the tablespace. -/
theorem Stands.onStore (h : t.Stands s) {α : Type} {action : Action Shelf α} {r : Result α}
    {sh : Shelf} (hrun : action.run (t.shelf s) = (r, sh))
    (hsound : Shelf.Sound t.keyType t.primaryIndex 0 sh) (hframe : Shelf.Frame (t.shelf s) sh) :
    ∃ s', (t.onStore action).run s = (r, s') ∧ t.shelf s' = sh ∧ t.Stands s' ∧
      ∀ u, u.Stands s → t.Apart u → u.Stands s' ∧ u.contents s' = u.contents s := by
  have hshelf := shelf_withShelf t s sh
  obtain ⟨hstands, hothers⟩ := @Stands.advance t s h (t.withShelf s sh)
    (fun _ hne => store_withShelf_of_ne hne s sh) (hshelf.symm ▸ hsound) (hshelf.symm ▸ hframe)
  exact ⟨t.withShelf s sh, by rw [run_onStore, hrun]; rfl, hshelf, hstands, hothers⟩

/-- What a table with the given rows answers when it is asked for a key. -/
def answerTo (rows : SortedMap Entry Row) (key : Entry) : Result Row :=
  match rows.get? key with
  | some row => .ok row
  | none => .error (.keyNotFound key)

/-- Getting a row answers what a shelf holds, for keys of any type, and only moves pages. -/
theorem run_getRow {type : ColumnType} {primary : Nat} {sh : Shelf}
    (h : Shelf.Sound type primary 0 sh) (key : Entry) :
    ∃ sh', (Shelf.getRow key primary).run sh = (answerTo (sh.rows primary) key, sh') ∧
      Shelf.Sound type primary 0 sh' ∧ Shelf.Moves primary sh sh' := by
  cases hrow : (sh.rows primary).get? key with
  | none =>
    refine ⟨_, ?_, h, .refl _⟩
    rw [answerTo, hrow]
    exact h.getRow_notFound hrow
  | some row =>
    obtain ⟨sh', hrun, hsound, hmoves⟩ := h.getRow hrow
    refine ⟨sh', ?_, hsound, hmoves⟩
    rw [answerTo, hrow]
    exact hrun

theorem Stands.get (h : t.Stands s) (key : Entry) :
    ((t.get key).run s).1 = answerTo (t.contents s) key := by
  obtain ⟨sh, hrun, -, -⟩ := run_getRow h.sound key
  rw [Table.get, run_onStore, hrun]
  rfl

theorem Stands.keys (h : t.Stands s) : t.keys.run s = (.ok (t.contents s).keys, s) := by
  have hindex : (t.store s).liveIndex = .ok (t.shelf s).index := h.sound.liveIndex
  show ((t.store s).keys, s) = _
  rw [Store.keys, hindex, contents, Shelf.keys_rows]
  rfl

theorem Stands.rowCount (h : t.Stands s) : (t.store s).rowCount = (t.contents s).size := by
  have hlive : (t.store s).index = some (t.shelf s).index := h.sound.live
  rw [contents, SortedMap.size_eq_of_keys (Shelf.keys_rows t.primaryIndex (t.shelf s)),
    Store.rowCount, hlive]

end Table

/-- The tables of a list stand in a tablespace and hold the given rows. -/
def Tablespace.Holds (tables : List Table) (rows : Table → SortedMap Entry Row) (s : Tablespace) :
    Prop :=
  ∀ t ∈ tables, t.Stands s ∧ t.contents s = rows t

/-- Work on the tablespace that leaves the tables standing and their rows as they are. -/
def Tablespace.Spares (tables : List Table) (rows : Table → SortedMap Entry Row)
    (work : Tablespace → Tablespace) : Prop :=
  ∀ s, Tablespace.Holds tables rows s → Tablespace.Holds tables rows (work s)

/-- No two different tables of a list share a store or a page file. -/
def Table.AllApart (tables : List Table) : Prop :=
  ∀ t ∈ tables, ∀ u ∈ tables, t = u ∨ t.Apart u

theorem Table.AllApart.mono {tables tables' : List Table} (h : AllApart tables)
    (hsubset : tables' ⊆ tables) : AllApart tables' :=
  fun t ht u hu => h t (hsubset ht) u (hsubset hu)

namespace Tablespace.Holds

variable {tables : List Table} {rows : Table → SortedMap Entry Row} {s : Tablespace} {t : Table}

theorem rowCount (h : Holds tables rows s) (ht : t ∈ tables) :
    (t.store s).rowCount = (rows t).size := by
  obtain ⟨hstands, hrows⟩ := h t ht
  rw [hstands.rowCount, hrows]

theorem ascending (h : Holds tables rows s) (ht : t ∈ tables) :
    (rows t).Ascending (Entry.fits t.keyType) := by
  obtain ⟨hstands, hrows⟩ := h t ht
  exact hrows ▸ hstands.ascending

/-- A row is found under its own key. -/
theorem keyed (h : Holds tables rows s) (ht : t ∈ tables) {k : Entry} (hk : k.fits t.keyType)
    {row : Row} (hrow : (rows t).get? k = some row) :
    row.Keyed t.keyType t.primaryIndex ∧ (row.keyAt t.primaryIndex).same k = true := by
  obtain ⟨hstands, hrows⟩ := h t ht
  rw [← hrows] at hrow
  obtain ⟨hkeyed, hsame, -⟩ := hstands.sound.agree.keyed_of_get?_contentsOf hk hrow
  exact ⟨hkeyed, hsame⟩

/-- A row is found by its own key. -/
theorem found (h : Holds tables rows s) (ht : t ∈ tables) {row : Row} (hrow : row ∈ (rows t).values) :
    row.Keyed t.keyType t.primaryIndex ∧ (rows t).get? (row.keyAt t.primaryIndex) = some row := by
  obtain ⟨b, hb, rfl⟩ := List.mem_map.1 hrow
  have hfits := (h.ascending ht).holds b hb
  have hget := SortedMap.get?_of_mem (Entry.orderedOn_fits _) (h.ascending ht) hb
  obtain ⟨hkeyed, hsame⟩ := h.keyed ht hfits hget
  refine ⟨hkeyed, hget ▸ ?_⟩
  exact SortedMap.get?_congr (Entry.orderedOn_fits _) (h.ascending ht) hkeyed.fits hfits
    (Entry.same_iff.1 hsame)

/-- The rows are in the order of their own keys. -/
theorem increasing_values (h : Holds tables rows s) (ht : t ∈ tables) :
    (rows t).values.Pairwise fun a b =>
      Ord.compare (a.keyAt t.primaryIndex) (b.keyAt t.primaryIndex) = .lt := by
  have hP := Entry.orderedOn_fits t.keyType
  have hascending := h.ascending ht
  have hown {b : Entry × Row} (hb : b ∈ (rows t).toList) :
      (b.2.keyAt t.primaryIndex).fits t.keyType ∧
        Ord.compare b.1 (b.2.keyAt t.primaryIndex) = .eq := by
    have hfits := hascending.holds b hb
    obtain ⟨hkeyed, hsame⟩ := h.keyed ht hfits (SortedMap.get?_of_mem hP hascending hb)
    exact ⟨hkeyed.fits, hP.symm hkeyed.fits hfits (Entry.same_iff.1 hsame)⟩
  rw [SortedMap.values, List.pairwise_map]
  refine hascending.increasing.imp_of_mem fun {b c} hb hc hlt => ?_
  obtain ⟨hbfits, hbown⟩ := hown hb
  obtain ⟨hcfits, hcown⟩ := hown hc
  rw [← hP.congr_left (hascending.holds b hb) hbfits hcfits hbown,
    ← hP.congr_right (hascending.holds b hb) (hascending.holds c hc) hcfits hcown]
  exact hlt

/-- No row is there twice. -/
theorem nodup_values (h : Holds tables rows s) (ht : t ∈ tables) : (rows t).values.Nodup :=
  nodup_values_of_keyed t.primaryIndex (h.ascending ht) fun hk hrow => h.keyed ht hk hrow

/-- The next key is that of the rows. -/
theorem nextKey? (h : Holds tables rows s) (ht : t ∈ tables) (after : Option Entry) :
    (t.nextKey? after).run s = (.ok ((rows t).nextKey? after), s) := by
  obtain ⟨hstands, hrows⟩ := h t ht
  have hindex : (t.store s).liveIndex = .ok (t.shelf s).index := hstands.sound.liveIndex
  have hnext := SortedMap.nextKey?_congr (Shelf.keys_rows t.primaryIndex (t.shelf s)) after
  show ((t.store s).nextKey? after, s) = _
  rw [Store.nextKey?, hindex, ← hrows, Table.contents, hnext]
  rfl

/-- Getting a row answers what the table holds, for keys of any type, and changes the contents of no
table. -/
theorem get (h : Holds tables rows s) (hapart : Table.AllApart tables) (ht : t ∈ tables)
    (key : Entry) :
    ∃ s', (t.get key).run s = (Table.answerTo (rows t) key, s') ∧ Holds tables rows s' := by
  obtain ⟨hstands, hrows⟩ := h t ht
  obtain ⟨sh, hrun, hsound, hmoves⟩ := Table.run_getRow hstands.sound key
  obtain ⟨s', hrun', hshelf, hstands', hothers⟩ := hstands.onStore hrun hsound hmoves.toFrame
  refine ⟨s', ?_, fun u hu => ?_⟩
  · rw [Table.get, hrun', ← hrows, Table.contents]
  · rcases hapart t ht u hu with rfl | hdistinct
    · exact ⟨hstands', by rw [Table.contents, hshelf, hmoves.rows, ← hrows, Table.contents]⟩
    · obtain ⟨hustands, hurows⟩ := hothers u (h u hu).1 hdistinct
      exact ⟨hustands, hurows.trans (h u hu).2⟩

/-- Looking a row up answers what the table holds, for keys of any type, and changes the contents
of no table. -/
theorem find? (h : Holds tables rows s) (hapart : Table.AllApart tables) (ht : t ∈ tables)
    (key : Entry) :
    ∃ s', (t.find? key).run s = (.ok ((rows t).get? key), s') ∧ Holds tables rows s' := by
  obtain ⟨s', hrun, hholds⟩ := h.get hapart ht key
  refine ⟨s', ?_, hholds⟩
  have hattempt : (t.get key).attempt.run s = (.ok (Table.answerTo (rows t) key), s') := by
    rw [Action.run_attempt, hrun]
  rw [Table.find?, Action.run_bind_ok hattempt, Table.answerTo]
  cases (rows t).get? key <;> rfl

end Tablespace.Holds

end PageDb
