import PageDb.Proofs.Table.Lifetime

/-!
Page files that were there before a table was created.

A table that is created does not look at them.  Its own pages take the place of those with their
numbers, and the others stay as they are.  Loading does not tell the files apart: it adds the keys of
all of them, so that a table that is opened has its own keys and those in the files left over.
-/

namespace PageDb

variable {ν : Type}

theorem Index.mem_keys_put {index index' : Index ν} {key : Entry} {value : ν}
    (h : index.put key value = .ok index') (k : Entry) : k ∈ index'.keys ↔ k = key ∨ k ∈ index.keys := by
  unfold Index.put at h
  split at h
  · cases h
  · rename_i hnone
    cases h
    simp only [SortedMap.keys, SortedMap.toList_insert, List.mem_map]
    constructor
    · rintro ⟨b, hb, rfl⟩
      rcases (SortedMap.mem_insertInto_of_new (Option.map_eq_none_iff.1 hnone)).1 hb with rfl | hold
      · exact .inl rfl
      · exact .inr ⟨b, hold, rfl⟩
    · rintro (rfl | ⟨b, hb, rfl⟩)
      · exact ⟨_, (SortedMap.mem_insertInto_of_new (Option.map_eq_none_iff.1 hnone)).2 (.inl rfl), rfl⟩
      · exact ⟨b, (SortedMap.mem_insertInto_of_new (Option.map_eq_none_iff.1 hnone)).2 (.inr hb), rfl⟩

namespace Shelf

/-- The keys in the index of a shelf, whatever its rows are. -/
def Lists (sh : Shelf) (keys : Entry → Prop) : Prop :=
  ∃ index, sh.store.index = some index ∧ ∀ k, k ∈ index.keys ↔ keys k

/-- The keys of rows. -/
def KeyOf (primary : Nat) (rows : List Row) (k : Entry) : Prop :=
  ∃ row ∈ rows, row.entries[primary]? = some k

variable {primary : Nat} {keys keys' : Entry → Prop} {rows : List Row} {sh sh' : Shelf}

theorem Lists.congr (h : sh.Lists keys) (hkeys : ∀ k, keys k ↔ keys' k) : sh.Lists keys' := by
  obtain ⟨index, hlive, hindex⟩ := h
  exact ⟨index, hlive, fun k => (hindex k).trans (hkeys k)⟩

/-- Loaded rows add their keys. -/
theorem Lists.loadRows (h : sh.Lists keys) {resident : Bool} {page loaded : Page}
    (hrun : (Shelf.loadRows primary resident page rows).run sh = (.ok loaded, sh')) :
    sh'.Lists (fun k => keys k ∨ KeyOf primary rows k) ∧ sh'.disk = sh.disk := by
  induction rows generalizing page sh keys with
  | nil =>
    cases hrun
    exact ⟨h.congr fun k => by simp [KeyOf], rfl⟩
  | cons row rest ih =>
    obtain ⟨index, hlive, hindex⟩ := h
    unfold Shelf.loadRows at hrun
    obtain ⟨key, hkey, hput⟩ := Action.exists_of_run_lift_bind hrun
    rw [Action.run_bind_ok (run_getIndex hlive)] at hput
    obtain ⟨index', hindex', hrest⟩ := Action.exists_of_run_lift_bind hput
    rw [Action.run_bind_ok (run_setIndex _ _)] at hrest
    have hentry : row.entries[primary]? = some key := by
      simp only [Row.key, Row.entries_placedOn] at hkey
      cases hentry : row.entries[primary]? with
      | none => simp [hentry] at hkey
      | some e => simpa [hentry] using hkey
    have hnext : (sh.withIndex index').Lists fun k => k = key ∨ keys k :=
      ⟨index', rfl, fun k => by rw [Index.mem_keys_put hindex', hindex]⟩
    obtain ⟨hlists, hdisk⟩ := ih hnext hrest
    refine ⟨hlists.congr fun k => ?_, hdisk⟩
    simp only [KeyOf, List.exists_mem_cons_iff, hentry, Option.some.injEq, eq_comm (a := key)]
    tauto

/-- A loaded page adds the keys of its rows. -/
theorem Lists.insertPage (h : sh.Lists keys) {resident : Bool}
    (hrun : (Shelf.insertPage rows primary).run sh = (.ok resident, sh')) :
    sh'.Lists (fun k => keys k ∨ KeyOf primary rows k) ∧ sh'.disk = sh.disk := by
  obtain ⟨index, hlive, hindex⟩ := h
  unfold Shelf.insertPage at hrun
  rw [Action.run_bind_ok (run_getIndex hlive)] at hrun
  obtain ⟨_, -, hload⟩ := Action.exists_of_run_lift_bind hrun
  rw [Action.run_bind_ok (run_getStore _)] at hload
  obtain ⟨page, sh₁, hrows, hend⟩ := Action.exists_of_run_bind hload
  obtain ⟨⟨index₁, hlive₁, hindex₁⟩, hdisk⟩ := Lists.loadRows ⟨index, hlive, hindex⟩ hrows
  rw [Action.run_bind_ok (run_modifyStore _ _)] at hend
  split at hend
  · rw [Action.run_bind_ok (run_modifyStore _ _), Action.run_bind_ok (run_modifyStore _ _)] at hend
    cases hend
    exact ⟨⟨index₁, (Store.alike_visit _ _ _).index.trans hlive₁, hindex₁⟩, hdisk⟩
  · cases hend
    exact ⟨⟨index₁, hlive₁, hindex₁⟩, hdisk⟩

end Shelf

namespace Table

variable {t : Table} {s s' : Tablespace} {d d₀ : Directory} {keys : Entry → Prop} {rows : List Row}

/-! ## Loading what is there -/

/-- The keys of the rows in the page file of a number. -/
def FileKey (t : Table) (d : Directory) (n : Nat) (k : Entry) : Prop :=
  ∃ image rows, d.read? (PageFile.name t.database t.name n) = some image ∧
    PageImage.decode image = .ok rows ∧ Shelf.KeyOf t.primaryIndex rows k

theorem lists_insertPage (h : (t.shelf s).Lists keys) {resident : Bool}
    (hrun : (t.onStore (Shelf.insertPage rows t.primaryIndex)).run s = (.ok resident, s')) :
    (t.shelf s').Lists (fun k => keys k ∨ Shelf.KeyOf t.primaryIndex rows k) ∧ s'.disk = s.disk := by
  rcases hinner : (Shelf.insertPage rows t.primaryIndex).run (t.shelf s) with ⟨r, sh⟩
  rw [run_onStore, hinner] at hrun
  obtain ⟨rfl, rfl⟩ := Prod.mk.inj hrun
  obtain ⟨hlists, hdisk⟩ := h.insertPage hinner
  exact ⟨(shelf_withShelf t s sh).symm ▸ hlists, hdisk⟩

/-- Empty pages add no keys. -/
theorem lists_openGap (h : (t.shelf s).Lists keys) {count : Nat}
    (hrun : (t.openGap count).run s = (.ok (), s')) :
    (t.shelf s').Lists keys ∧ s'.disk = s.disk := by
  induction count generalizing s with
  | zero =>
    cases hrun
    exact ⟨h, rfl⟩
  | succ count ih =>
    obtain ⟨resident, s₁, hpage, hrest⟩ := Action.exists_of_run_bind hrun
    obtain ⟨h₁, hdisk₁⟩ := lists_insertPage h hpage
    obtain ⟨hlists, hdisk⟩ := ih (h₁.congr fun k => by simp [Shelf.KeyOf]) hrest
    exact ⟨hlists, hdisk.trans hdisk₁⟩

theorem read_of_run {file : String} {image : Bytes}
    (hrun : (Tablespace.onDisk (Disk.read file)).run s = (.ok image, s')) :
    s.disk.directory.read? file = some image ∧ s'.stores = s.stores ∧
      s'.disk.directory = s.disk.directory := by
  rw [Tablespace.onDisk, Action.run_onPart] at hrun
  cases hread : s.disk.directory.read? file with
  | none =>
    simp only [Disk.read, Action.run_bind, Action.run_get, hread, Action.run_throw] at hrun
    cases hrun
  | some data =>
    rw [Disk.read_run hread] at hrun
    cases hrun
    exact ⟨rfl, rfl, rfl⟩

/-- Page files that are loaded add the keys of their rows. -/
theorem lists_loadPages (h : (t.shelf s).Lists keys) (hdirectory : s.disk.directory = d)
    {expected : Nat} {pages : List Nat} (hrun : (t.loadPages expected pages).run s = (.ok (), s')) :
    (t.shelf s').Lists fun k => keys k ∨ ∃ n ∈ pages, t.FileKey d n k := by
  induction pages generalizing s expected keys with
  | nil =>
    cases hrun
    exact h.congr fun k => by simp
  | cons n rest ih =>
    obtain ⟨_, s₁, hgap, hread⟩ := Action.exists_of_run_bind hrun
    obtain ⟨h₁, hdisk₁⟩ := lists_openGap h hgap
    obtain ⟨image, s₂, hfile, hrows⟩ := Action.exists_of_run_bind hread
    obtain ⟨himage, hstores, hdirectory₂⟩ := read_of_run hfile
    rw [hdisk₁, hdirectory] at himage hdirectory₂
    obtain ⟨rows, hdecode, hload⟩ := Action.exists_of_run_lift_bind hrows
    obtain ⟨resident, s₃, hpage, hrest⟩ := Action.exists_of_run_bind hload
    have h₂ : (t.shelf s₂).Lists keys := by
      rw [shelf, store, hstores]
      exact h₁
    obtain ⟨h₃, hdisk₃⟩ := lists_insertPage h₂ hpage
    refine (ih h₃ (hdisk₃ ▸ hdirectory₂) hrest).congr fun k => ?_
    have hfileKey : t.FileKey d n k ↔ Shelf.KeyOf t.primaryIndex rows k := by
      simp [FileKey, himage, hdecode]
    rw [List.exists_mem_cons_iff, hfileKey, or_assoc]

/-- A table that is opened has the keys of all page files whose names the directory lists. -/
theorem lists_recover (h : (t.shelf s).Lists keys) (hrun : t.recover.run s = (.ok (), s')) :
    (t.shelf s').Lists fun k => keys k ∨ ∃ n,
      (∃ f ∈ s.disk.directory.names, PageFile.number? t.database t.name f = some n) ∧
        t.FileKey s.disk.directory n k := by
  cases hfiles : s.disk.directory.files with
  | none =>
    have hfailed : (Tablespace.onDisk (Disk.pageNumbers t.database t.name)).run s = (.error .io, s) := by
      simp only [Tablespace.onDisk, Action.run_onPart, Disk.pageNumbers, Action.run_bind,
        Action.run_get, hfiles, Action.run_throw]
    rw [recover, Action.run_bind_error hfailed] at hrun
    cases hrun
  | some files =>
    have hpages : (Disk.pageNumbers t.database t.name).run s.disk =
        (.ok ((files.keys.filterMap (PageFile.number? t.database t.name)).mergeSort
          fun m n => m ≤ n), s.disk) := by
      simp only [Disk.pageNumbers, Action.run_bind, Action.run_get, hfiles, Action.run_pure]
    rw [run_recover hpages] at hrun
    refine (lists_loadPages h rfl hrun).congr fun k => ?_
    simp only [(List.mergeSort_perm _ _).mem_iff, List.mem_filterMap, Directory.names_eq hfiles]

/-! ## Files of pages and others -/

/-- After all pages have been written the files of the pages have the keys of the table. -/
theorem Backed.mem_keys_iff (h : t.Backed s)
    (hsaved : Shelf.Saved t.keyType t.primaryIndex (t.shelf s)) (k : Entry) :
    k ∈ (t.contents s).keys ↔
      ∃ n, 0 < n ∧ n ≤ (t.store s).lastPage ∧ t.FileKey s.disk.directory n k := by
  constructor
  · intro hk
    obtain ⟨b, hb, rfl⟩ := List.mem_map.1 hk
    obtain ⟨hpos, hle⟩ := h.stands.position hb
    obtain ⟨image, rows, himage, hdecode, hfills⟩ := h.fills hsaved hpos hle
    have hrow := (hfills.mem b.2).2 ⟨List.mem_map_of_mem hb, rfl⟩
    obtain ⟨key, hkey, -⟩ := hfills.keyed _ hrow
    obtain ⟨row, hrow, hplaced⟩ := List.mem_map.1 hrow
    refine ⟨_, hpos, hle, image, rows, himage, hdecode, row, hrow, ?_⟩
    have hown : b.1 = key := by
      rw [(h.binds b hb).key, Row.keyAt, show b.2.entries[t.schema.primaryIndex]? = some key from hkey]
      rfl
    rw [hown, ← hkey, ← hplaced]
    rfl
  · rintro ⟨n, hpos, hle, image, rows, himage, hdecode, row, hrow, hkey⟩
    obtain ⟨image', rows', himage', hdecode', hfills⟩ := h.fills hsaved hpos hle
    cases himage.symm.trans himage'
    cases hdecode.symm.trans hdecode'
    obtain ⟨hvalue, -⟩ := (hfills.mem (row.placedOn n)).1 (List.mem_map.2 ⟨row, hrow, rfl⟩)
    obtain ⟨b, hb, hplaced⟩ := List.mem_map.1 hvalue
    refine List.mem_map.2 ⟨b, hb, ?_⟩
    rw [(h.binds b hb).key, hplaced, Row.keyAt, Row.entries_placedOn,
      show row.entries[t.schema.primaryIndex]? = some k from hkey]
    rfl

/-- Work on a table that was created over a directory: it is backed, and the files that have no number
of a page are as they were. -/
structure Leaves (t : Table) (d₀ : Directory) (s : Tablespace) : Prop where
  backed : t.Backed s
  others : ∀ n, n = 0 ∨ (t.store s).lastPage < n →
    s.disk.directory.read? (PageFile.name t.database t.name n) =
      d₀.read? (PageFile.name t.database t.name n)

namespace Leaves

theorem create (config : Config) (hordered : s.disk.directory.Ordered)
    (hthere : s.disk.directory.files.isSome) : t.Leaves s.disk.directory (s.create config t) :=
  ⟨backed_create config hordered hthere, fun _ _ => rfl⟩

theorem steady (hproper : t.schema.Proper) : t.Steady (t.Leaves d₀) where
  proper := hproper
  stands h := h.backed.stands
  binds h := h.backed.binds
  advances {s s'} h hadvances := by
    have hframe := hadvances.shelf.frame
    have hlast : (t.store s).lastPage ≤ (t.store s').lastPage := hframe.last
    refine ⟨h.backed.advances hadvances, fun n hn => ?_⟩
    refine (hframe.disk.others _ ?_).trans (h.others n (by omega))
    -- no page has the number of the file
    rintro ⟨m, hpos, hle, htouched⟩
    have hname : (t.shelf s').store.fileName m = PageFile.name t.database t.name m :=
      hadvances.stands.fileName m
    have hle : m ≤ (t.store s').lastPage := hle
    rw [hname] at htouched
    rcases htouched with heq | heq
    · obtain rfl := PageFile.name_injective _ _ heq
      omega
    · exact PageFile.name_ne_temporary _ _ n _ heq

theorem spared (h : t.Leaves d₀ s) (hspared : t.Spared s s') : t.Leaves d₀ s' := by
  refine ⟨h.backed.spared hspared, fun n hn => ?_⟩
  rw [hspared.store] at hn
  rw [hspared.pages.read, h.others n hn]

theorem runs (hproper : t.schema.Proper) (h : t.Leaves d₀ s) (hruns : t.Runs s s') : t.Leaves d₀ s' := by
  induction hruns with
  | refl => exact h
  | call _ hc ih => exact ((steady hproper).call hc _ ih).1
  | spared _ hs ih => exact ih.spared hs

end Leaves

/-- The keys in page files that have no number of the pages up to the last. -/
def LeftKey (t : Table) (last : Nat) (d : Directory) (k : Entry) : Prop :=
  ∃ n, (n = 0 ∨ last < n) ∧ n < PageFile.numberLimit ∧ t.FileKey d n k

/-- The page numbers that an opened table finds with a key in their files: a page file is listed under
its number, and the file of that number is the one that is read. -/
theorem listed_iff {d d' : Directory} (hspared : Directory.SparesPages t.database t.name d d')
    (number n : Nat) (k : Entry) :
    ((∃ f ∈ d'.names, PageFile.number? t.database t.name f = some n) ∧
      (t.withNumber number).FileKey d' n k) ↔ n < PageFile.numberLimit ∧ t.FileKey d n k := by
  have hfile : (t.withNumber number).FileKey d' n k ↔ t.FileKey d n k := by
    simp only [FileKey, withNumber, hspared.read]
    rfl
  rw [hfile]
  refine and_congr_left fun hkey => ⟨?_, fun hlimit => ?_⟩
  · rintro ⟨f, -, hn⟩
    exact PageFile.number?_lt hn
  · obtain ⟨image, -, himage, -⟩ := hkey
    rw [← hspared.read] at himage
    exact ⟨_, Directory.mem_names_of_read? himage, PageFile.number?_name _ _ hlimit⟩

/-- A table that has just been opened again has the keys of the page files of the work before. -/
theorem exists_keys_of_recover {config : Config} {d : Directory} {space s'' : Tablespace} {number : Nat}
    (hspared : Directory.SparesPages t.database t.name d space.disk.directory)
    (hrecover : (t.withNumber number).recover.run (space.create config (t.withNumber number)) =
      (.ok (), s'')) :
    ∃ keys, ((t.withNumber number).keys.run s'').1 = .ok keys ∧
      ∀ k, k ∈ keys ↔ ∃ n, n < PageFile.numberLimit ∧ t.FileKey d n k := by
  have hempty : ((t.withNumber number).shelf (space.create config (t.withNumber number))).Lists
      fun _ => False := by
    rw [shelf_create]
    exact ⟨∅, rfl, fun k => by simp [SortedMap.keys]⟩
  obtain ⟨index, hlive, hindex⟩ := lists_recover hempty hrecover
  refine ⟨index.keys, ?_, fun k => ?_⟩
  · have hlive' : ((t.withNumber number).store s'').index = some index := hlive
    show ((t.withNumber number).store s'').keys = _
    rw [Store.keys, Store.liveIndex, hlive']
    rfl
  · refine ((hindex k).trans (iff_of_eq (false_or _))).trans ?_
    exact exists_congr fun n => listed_iff hspared number n k

/-- A table that is opened again after all its pages have been written has the keys that it had, and
those in the page files that were there when it was created and are not those of its pages. -/
theorem keys_of_recover {config config' : Config} {s₀ space s'' : Tablespace} {count number : Nat}
    (hproper : t.schema.Proper) (hordered : s₀.disk.directory.Ordered)
    (hthere : s₀.disk.directory.files.isSome) (hruns : t.Runs (s₀.create config t) s)
    (hpersist : t.persist.run s = (.ok count, s'))
    (hpages : (t.store s').pageCount < PageFile.numberLimit)
    (hspared : Directory.SparesPages t.database t.name s'.disk.directory space.disk.directory)
    (hrecover : (t.withNumber number).recover.run (space.create config' (t.withNumber number)) =
      (.ok (), s'')) :
    ∃ keys keys', (t.keys.run s').1 = .ok keys ∧ ((t.withNumber number).keys.run s'').1 = .ok keys' ∧
      ∀ k, k ∈ keys' ↔ k ∈ keys ∨ t.LeftKey (t.store s').pageCount s₀.disk.directory k := by
  have hleaves : t.Leaves s₀.disk.directory s :=
    (Leaves.create config hordered hthere).runs hproper hruns
  obtain ⟨hbacked, hsaved⟩ := hleaves.backed.persist hproper hpersist
  have hothers : t.Leaves s₀.disk.directory s' := by
    have hkept := ((Leaves.steady hproper).persist s hleaves).1
    rwa [hpersist] at hkept
  obtain ⟨keys', hkeys', hfiles⟩ := exists_keys_of_recover hspared hrecover
  refine ⟨(t.contents s').keys, keys', by rw [hbacked.stands.keys], hkeys', fun k => ?_⟩
  have hsame {n : Nat} (hn : n = 0 ∨ (t.store s').pageCount < n) :
      t.FileKey s'.disk.directory n k ↔ t.FileKey s₀.disk.directory n k := by
    simp only [FileKey, hothers.others n hn]
  have hpages : (t.store s').lastPage < PageFile.numberLimit := hpages
  rw [hfiles k, hbacked.mem_keys_iff hsaved]
  constructor
  · rintro ⟨n, hlimit, hkey⟩
    by_cases hpage : 0 < n ∧ n ≤ (t.store s').lastPage
    · exact .inl ⟨n, hpage.1, hpage.2, hkey⟩
    · have hleft : n = 0 ∨ (t.store s').pageCount < n := by
        rw [Store.pageCount]
        omega
      exact .inr ⟨n, hleft, hlimit, (hsame hleft).1 hkey⟩
  · rintro (⟨n, -, hle, hkey⟩ | ⟨n, hleft, hlimit, hkey⟩)
    · exact ⟨n, by omega, hkey⟩
    · exact ⟨n, hlimit, (hsame hleft).2 hkey⟩

end Table

end PageDb
