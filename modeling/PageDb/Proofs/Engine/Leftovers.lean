import PageDb.Proofs.Engine.Catalog
import PageDb.Proofs.Table.Leftovers

/-!
Tables that are created where an earlier run has left page files.

The registry of an engine starts out empty, so a table can be created whose page files are there
already.  It is empty and stays apart from these files, until it is opened by another engine.
-/

namespace PageDb

namespace Engine

variable {e₀ e₁ e₂ e₃ : Engine} {d d' : Nat} {name : String} {schema : Schema} {t t' : Table}
  {s s' : Tablespace}

/-- A table that is created is empty, and the files stay as they are. -/
theorem createTable_eq_ok (h : (createTable d name schema).run e₀ = (.ok t, e₁)) :
    t = ⟨e₀.nextTable, (e₀.database d).name, name, schema⟩ ∧
      e₁.space = e₀.space.create e₀.config t := by
  rw [run_createTable] at h
  split at h
  · cases h
  · cases h
    exact ⟨rfl, rfl⟩

/-- A table that is opened has been loaded from its page files. -/
theorem openTable_eq_ok (h : (openTable d name schema).run e₂ = (.ok t', e₃)) :
    t' = ⟨e₂.nextTable, (e₂.database d).name, name, schema⟩ ∧
      t'.recover.run (e₂.space.create e₂.config t') = (.ok (), e₃.space) := by
  rw [run_openTable] at h
  split at h
  · cases h
  dsimp only at h
  split at h
  · rename_i hrecover
    cases h
    exact ⟨rfl, hrecover⟩
  · cases h

/-- A table whose page files can be loaded is opened. -/
theorem openTable_of_recover {space : Tablespace} (hnew : ¬ (e₂.database d).tables.contains name)
    (ht : t = ⟨e₂.nextTable, (e₂.database d).name, name, schema⟩)
    (hrecover : t.recover.run (e₂.space.create e₂.config t) = (.ok (), space)) :
    ∃ e, (openTable d name schema).run e₂ = (.ok t, e) ∧ e.space = space := by
  subst ht
  rw [run_openTable, if_neg hnew]
  simp only [hrecover]
  exact ⟨_, rfl, rfl⟩

/-- A table is created, worked on and written, and opened by another engine on the same directory.  The
keys that it has there are those that it had, and the keys of the rows in page files that were there
before it was created and have no number of its pages.  Page numbers take four bytes. -/
theorem mem_keys_of_openTable {count : Nat} (hproper : schema.Proper)
    (hordered : e₀.space.disk.directory.Ordered) (hthere : e₀.space.disk.directory.files.isSome)
    (hcreate : (createTable d name schema).run e₀ = (.ok t, e₁)) (hruns : t.Runs e₁.space s)
    (hpersist : t.persist.run s = (.ok count, s'))
    (hpages : (t.store s').pageCount < PageFile.numberLimit)
    (hspared : Directory.SparesPages t.database t.name s'.disk.directory e₂.space.disk.directory)
    (hdatabase : (e₂.database d').name = t.database)
    (hopen : (openTable d' name schema).run e₂ = (.ok t', e₃)) :
    ∃ keys keys', (t.keys.run s').1 = .ok keys ∧ (t'.keys.run e₃.space).1 = .ok keys' ∧
      ∀ k, k ∈ keys' ↔ k ∈ keys ∨ t.LeftKey (t.store s').pageCount e₀.space.disk.directory k := by
  obtain ⟨ht, hspace⟩ := createTable_eq_ok hcreate
  obtain ⟨ht', hrecover⟩ := openTable_eq_ok hopen
  have hsame : t' = t.withNumber e₂.nextTable := by
    rw [ht', hdatabase, ht]
    rfl
  subst hsame
  rw [hspace] at hruns
  exact Table.keys_of_recover (ht ▸ hproper) hordered hthere hruns hpersist hpages hspared hrecover

/-- An engine with one database on the files of a disk, and room for one page with one row. -/
def shopOn (disk : Disk) : Engine :=
  (Engine.start { budget := 1, cap := 1 } disk).createDatabase "shop"

/-- A table of numbers. -/
def counts : Table where
  number := 1
  database := "shop"
  name := "counts"
  schema := ⟨[({ name := "n", type := .int } : Column).asPrimary], 0⟩

/-- The table is created and filled. -/
def counted (disk : Disk) (numbers : List Int32) : Tablespace :=
  (numbers.map fun n => TableCall.insert [.int n] false).foldl (fun s c => ((counts.call c).run s).2)
    ((createTable 1 "counts" counts.schema).run (shopOn disk)).2.space

/-- The files after the first engine has written two rows. -/
def countFiles : Disk := (counts.persist.run (counted {} [1, 2])).2.disk

/-- The tables after the second engine has written a single row. -/
def recounted : Tablespace := (counts.persist.run (counted countFiles [7])).2

/-- A third engine opens the table and finds two page files. -/
theorem run_openTable_recounted :
    ∃ e, (openTable 1 "counts" counts.schema).run (shopOn recounted.disk) = (.ok counts, e) ∧
      e.space = ((counts.loadPages 1 [1, 2]).run
        ((shopOn recounted.disk).space.create { budget := 1, cap := 1 } counts)).2 := by
  -- sorting the page numbers does not evaluate, loading the pages does
  have hrecover : counts.recover.run
        ((shopOn recounted.disk).space.create { budget := 1, cap := 1 } counts) =
      (counts.loadPages 1 [1, 2]).run
        ((shopOn recounted.disk).space.create { budget := 1, cap := 1 } counts) := by
    obtain ⟨files, hfiles, hnumbers⟩ : ∃ files,
        (shopOn recounted.disk).space.disk.directory.files = some files ∧
          files.keys.filterMap (PageFile.number? "shop" "counts") = List.range' 1 2 :=
      Option.map_eq_some_iff.1 (by decide +kernel :
        ((shopOn recounted.disk).space.disk.directory.files.map fun files =>
          files.keys.filterMap (PageFile.number? "shop" "counts")) = some [1, 2])
    exact Table.run_recover (Disk.run_pageNumbers hfiles (.of_eq hnumbers))
  have hok : ((counts.loadPages 1 [1, 2]).run
      ((shopOn recounted.disk).space.create { budget := 1, cap := 1 } counts)).1 = .ok () := by
    decide +kernel
  refine openTable_of_recover (by decide) rfl (hrecover.trans ?_)
  rw [← hok]
  exact Prod.mk.eta.symm

/-- The single row was the only one, and the second row of the first engine is back. -/
theorem returned_of_openTable :
    ∃ e, (counts.keys.run recounted).1 = .ok [.int 7] ∧
      (openTable 1 "counts" counts.schema).run (shopOn recounted.disk) = (.ok counts, e) ∧
      (counts.keys.run e.space).1 = .ok [.int 2, .int 7] ∧
      ((counts.get (.int 2)).run e.space).1 = .ok ⟨[.int 2], 2⟩ := by
  obtain ⟨e, hopen, hspace⟩ := run_openTable_recounted
  refine ⟨e, by decide +kernel, hopen, ?_, ?_⟩
  · rw [hspace]
    decide +kernel
  · rw [hspace]
    decide +kernel

theorem run_createTable_shopOn (disk : Disk) :
    (createTable 1 "counts" counts.schema).run (shopOn disk) =
      (.ok counts, ((createTable 1 "counts" counts.schema).run (shopOn disk)).2) := rfl

theorem database_shopOn (disk : Disk) : ((shopOn disk).database 1).name = counts.database := rfl

theorem directory_shopOn {disk : Disk} (hthere : disk.directory.files.isSome) :
    (shopOn disk).space.disk.directory = disk.directory := by
  obtain ⟨files, hfiles⟩ := Option.isSome_iff_exists.1 hthere
  show disk.directory.restored = disk.directory
  rw [Directory.restored, hfiles]

/-- What the two engines have written is in order. -/
theorem backed_counted (disk : Disk) (hordered : disk.directory.Ordered)
    (hthere : disk.directory.files.isSome) (numbers : List Int32) :
    counts.Backed (counts.persist.run (counted disk numbers)).2 := by
  have hdirectory := directory_shopOn hthere
  have hcreated : counts.Lived ((shopOn disk).space.create { budget := 1, cap := 1 } counts) :=
    .create _ ⟨_, rfl, rfl⟩ (hdirectory ▸ hordered) (hdirectory ▸ hthere)
  have htyped : ∀ c ∈ numbers.map fun n => TableCall.insert [.int n] false, c.Typed counts := by
    simp [TableCall.Typed]
  have hlived := (hcreated.calls htyped).call (c := .persist) trivial
  have hpersist := hlived.backed.2
  rw [Table.call, Action.run_bind_pure] at hpersist
  exact hpersist

/-- The single row comes back, and what is left of the first two. -/
theorem mem_keys_of_openTable_counts :
    ∃ e keys, (openTable 1 "counts" counts.schema).run (shopOn recounted.disk) = (.ok counts, e) ∧
      (counts.keys.run e.space).1 = .ok keys ∧
        ∀ k, k ∈ keys ↔ k = .int 7 ∨ counts.LeftKey 1 countFiles.directory k := by
  obtain ⟨e, hopen, -⟩ := run_openTable_recounted
  obtain ⟨hordered, hthere⟩ :
      countFiles.directory.Ordered ∧ countFiles.directory.files.isSome := by
    have hfirst := backed_counted {} Directory.ordered_empty rfl [1, 2]
    rw [countFiles]
    exact ⟨hfirst.stands.ordered, hfirst.there⟩
  have hsecond : counts.Backed recounted := by
    rw [recounted]
    exact backed_counted countFiles hordered hthere [7]
  have hdirectory := directory_shopOn hthere
  have hordered' : (shopOn countFiles).space.disk.directory.Ordered := by
    rw [hdirectory]
    exact hordered
  have hthere' : (shopOn countFiles).space.disk.directory.files.isSome := by
    rw [hdirectory]
    exact hthere
  obtain ⟨hcount, hpages, hkeys⟩ : (counts.persist.run (counted countFiles [7])).1 = .ok 1 ∧
      (counts.store recounted).pageCount = 1 ∧
      (counts.keys.run recounted).1 = .ok [.int 7] := by decide +kernel
  have hruns : counts.Runs ((createTable 1 "counts" counts.schema).run (shopOn countFiles)).2.space
      (counted countFiles [7]) := Table.Runs.refl.calls (by simp [TableCall.Typed])
  have hpersist : counts.persist.run (counted countFiles [7]) = (.ok 1, recounted) := by
    rw [recounted, ← hcount]
    exact Prod.mk.eta.symm
  have hspared : Directory.SparesPages counts.database counts.name recounted.disk.directory
      (shopOn recounted.disk).space.disk.directory := by
    rw [directory_shopOn hsecond.there]
    exact Directory.sparesPages_self hsecond.stands.ordered hsecond.there _ _
  have hproper : counts.schema.Proper := ⟨_, rfl, rfl⟩
  have hlimit : (counts.store recounted).pageCount < PageFile.numberLimit := by
    rw [hpages]
    decide
  obtain ⟨keys, keys', hold, hnew, hiff⟩ := mem_keys_of_openTable hproper hordered' hthere'
    (run_createTable_shopOn countFiles) hruns hpersist hlimit hspared (database_shopOn _) hopen
  obtain rfl : [.int 7] = keys := Except.ok.inj (hkeys.symm.trans hold)
  refine ⟨e, keys', hopen, hnew, fun k => ?_⟩
  rw [hiff k, hpages, hdirectory, List.mem_singleton]

end Engine

end PageDb
