import PageDb.Proofs.PageFiles
import PageDb.Proofs.Store.Pages
import PageDb.Proofs.Table.Creation

/-!
The page files of a table.

`Table.Runs` is a run of calls on one table, between which others may work as long as they spare its
page files.  If the table began without page files then, after every such run, each of its pages has
a file or gets one before it leaves memory, and no other file is taken for a page of it:
`Table.Filing`.  So after all pages have been written the files list the pages of the table.
-/

namespace PageDb

/-- What others may do to a directory: the page files of a table stay as they are, and no file that
could be taken for one is new. -/
structure Directory.SparesPages (database table : String) (d d' : Directory) : Prop where
  ordered : d'.Ordered
  there : d'.files.isSome
  read : ∀ n, d'.read? (PageFile.name database table n) = d.read? (PageFile.name database table n)
  numbered : ∀ f ∈ d'.names, ∀ n, PageFile.number? database table f = some n → f ∈ d.names

/-- A directory that is there and has no page file of a table. -/
structure Directory.FreeOfPages (database table : String) (d : Directory) : Prop where
  ordered : d.Ordered
  there : d.files.isSome
  unnumbered : ∀ f ∈ d.names, PageFile.number? database table f = none

theorem Directory.sparesPages_self {d : Directory} (hordered : d.Ordered) (hthere : d.files.isSome)
    (database table : String) : SparesPages database table d d :=
  ⟨hordered, hthere, fun _ => rfl, fun _ hf _ _ => hf⟩

namespace Table

/-- What others may do beside a table: its store and its page files stay as they are. -/
structure Spared (t : Table) (s s' : Tablespace) : Prop where
  store : t.store s' = t.store s
  pages : Directory.SparesPages t.database t.name s.disk.directory s'.disk.directory

/-- A run of calls on a table, between which others work. -/
inductive Runs (t : Table) (s : Tablespace) : Tablespace → Prop where
  | refl : Runs t s s
  | call {s' : Tablespace} {c : TableCall} (h : Runs t s s') (hc : c.Typed t) :
      Runs t s ((t.call c).run s').2
  | spared {s' s'' : Tablespace} (h : Runs t s s') (hs : t.Spared s' s'') : Runs t s s''

theorem Runs.calls {t : Table} {s s' : Tablespace} (h : t.Runs s s') {calls : List TableCall}
    (hcalls : ∀ c ∈ calls, c.Typed t) :
    t.Runs s (calls.foldl (fun s c => ((t.call c).run s).2) s') := by
  induction calls generalizing s' with
  | nil => exact h
  | cons c rest ih => exact ih (h.call (hcalls c (by simp))) fun d hd => hcalls d (by simp [hd])

/-- A table that stands with rows that fit, each of whose pages has a file or gets one before it leaves
memory. -/
structure Backed (t : Table) (s : Tablespace) : Prop where
  stands : t.Stands s
  binds : ∀ b ∈ (t.contents s).toList, t.schema.Binds b
  safe : ∀ n, 0 < n → n ≤ (t.store s).lastPage → (t.shelf s).Safe n
  there : s.disk.directory.files.isSome

/-- A table that stands with rows that fit, and whose page files are those of its pages. -/
structure Filing (t : Table) (s : Tablespace) : Prop where
  stands : t.Stands s
  binds : ∀ b ∈ (t.contents s).toList, t.schema.Binds b
  safe : ∀ n, 0 < n → n ≤ (t.store s).lastPage → (t.shelf s).Safe n
  numbered : ∀ f ∈ s.disk.directory.names, ∀ n, PageFile.number? t.database t.name f = some n →
    ∃ m, 0 < m ∧ m ≤ (t.store s).lastPage ∧ f = PageFile.name t.database t.name m
  there : s.disk.directory.files.isSome

variable {t : Table} {s s' : Tablespace}

/-! ## Tables whose pages are all backed by files -/

/-- A table starts out without pages. -/
theorem backed_create (config : Config) (hordered : s.disk.directory.Ordered)
    (hthere : s.disk.directory.files.isSome) : t.Backed (s.create config t) where
  stands := stands_create config t hordered
  binds := by
    rw [contents_create]
    simp
  safe n hpos hle := by
    have hlast : (t.store (s.create config t)).lastPage = 0 :=
      congrArg (fun sh => sh.store.lastPage) (shelf_create s config t)
    omega
  there := hthere

namespace Backed

/-- Every page that a call opens is safe. -/
theorem advances (h : t.Backed s) (hadvances : t.Advances s s') : t.Backed s' := by
  have hframe := hadvances.shelf.frame
  refine ⟨hadvances.stands, hadvances.shelf.binds, ?_, hframe.disk.there h.there⟩
  intro n hpos hle
  -- old pages stay safe, and new ones are marked when they are opened
  by_cases hold : n ≤ (t.store s).lastPage
  · exact hframe.safe n hpos hold (h.safe n hpos hold)
  · exact hadvances.shelf.opened n (Nat.lt_of_not_le hold) hle

theorem steady (hproper : t.schema.Proper) : t.Steady t.Backed where
  proper := hproper
  stands h := h.stands
  binds h := h.binds
  advances h hadvances := h.advances hadvances

theorem spared (h : t.Backed s) (hspared : t.Spared s s') : t.Backed s' := by
  obtain ⟨hstands, hcontents⟩ :=
    h.stands.unaffected hspared.store hspared.pages.ordered hspared.pages.read
  refine ⟨hstands, ?_, ?_, hspared.pages.there⟩
  · rw [hcontents]
    exact h.binds
  · intro n hpos hle
    rw [hspared.store] at hle
    have himage : (t.shelf s').image? n = (t.shelf s).image? n := by
      show s'.disk.directory.read? ((t.store s').fileName n) =
        s.disk.directory.read? ((t.store s).fileName n)
      rw [hstands.fileName, h.stands.fileName]
      exact hspared.pages.read n
    rcases h.safe n hpos hle with ⟨p, hp, hdirty⟩ | hfiled
    · refine .inl ⟨p, ?_, hdirty⟩
      show (t.store s').pages.get? n = some p
      rwa [hspared.store]
    · refine .inr ?_
      rwa [Shelf.Filed, himage]

/-- After all pages have been written every page is in its file. -/
theorem persist (h : t.Backed s) (hproper : t.schema.Proper) {count : Nat}
    (hrun : t.persist.run s = (.ok count, s')) :
    t.Backed s' ∧ Shelf.Saved t.keyType t.primaryIndex (t.shelf s') := by
  have hbacked : t.Backed s' := by
    have hkept := ((steady hproper).persist s h).1
    rwa [hrun] at hkept
  obtain ⟨r, sh, hshelf⟩ : ∃ r sh, Shelf.persist.run (t.shelf s) = (r, sh) := ⟨_, _, rfl⟩
  have hbegan := run_onStore t Shelf.persist s
  rw [hshelf] at hbegan
  obtain ⟨rfl, rfl⟩ := Prod.mk.inj (hrun.symm.trans hbegan)
  obtain ⟨-, -, hsaved⟩ := h.stands.sound.saved_persist h.safe hshelf
  have hsh : t.shelf (t.withShelf s sh) = sh := shelf_withShelf t s sh
  refine ⟨hbacked, ?_⟩
  show Shelf.Saved t.keyType t.primaryIndex (t.shelf (t.withShelf s sh))
  rwa [hsh]

/-- The file of a page that has been written. -/
theorem mem_names (h : t.Backed s) (hsaved : Shelf.Saved t.keyType t.primaryIndex (t.shelf s)) {n : Nat}
    (hpos : 0 < n) (hle : n ≤ (t.store s).lastPage) :
    PageFile.name t.database t.name n ∈ s.disk.directory.names := by
  obtain ⟨hfiled, -⟩ := hsaved n hpos hle
  obtain ⟨image, himage⟩ := Option.isSome_iff_exists.1 hfiled
  rw [← h.stands.fileName n]
  exact Directory.mem_names_of_read? himage

end Backed

/-! ## Tables whose page files are those of their pages -/

theorem Filing.backed (h : t.Filing s) : t.Backed s := ⟨h.stands, h.binds, h.safe, h.there⟩

/-- A file that a call writes is one of a page. -/
theorem Advances.numbered (h : t.Advances s s') {f : String} (hf : f ∈ s'.disk.directory.names) {n : Nat}
    (hn : PageFile.number? t.database t.name f = some n) :
    f ∈ s.disk.directory.names ∨
      ∃ m, 0 < m ∧ m ≤ (t.store s').lastPage ∧ f = PageFile.name t.database t.name m := by
  rcases h.shelf.frame.disk.names f hf with hold | ⟨m, hpos, hle, htouched⟩
  · exact .inl hold
  · have hname : (t.shelf s').store.fileName m = PageFile.name t.database t.name m :=
      h.stands.fileName m
    rcases htouched with rfl | rfl
    · exact .inr ⟨m, hpos, hle, hname⟩
    · -- a draft has no number
      rw [PageFile.number?_temporary] at hn
      cases hn

/-- A table starts out without pages and without files. -/
theorem filing_create (config : Config)
    (hfree : Directory.FreeOfPages t.database t.name s.disk.directory) :
    t.Filing (s.create config t) := by
  have hbacked := backed_create config (t := t) hfree.ordered hfree.there
  refine ⟨hbacked.stands, hbacked.binds, hbacked.safe, fun f hf n hn => ?_, hbacked.there⟩
  rw [hfree.unnumbered f hf] at hn
  cases hn

namespace Filing

/-- A call files what it writes under the names of pages. -/
theorem advances (h : t.Filing s) (hadvances : t.Advances s s') : t.Filing s' := by
  have hbacked := h.backed.advances hadvances
  refine ⟨hbacked.stands, hbacked.binds, hbacked.safe, fun f hf n hn => ?_, hbacked.there⟩
  rcases hadvances.numbered hf hn with hold | hpage
  · obtain ⟨m, hpos, hle, heq⟩ := h.numbered f hold n hn
    exact ⟨m, hpos, Nat.le_trans hle hadvances.shelf.frame.last, heq⟩
  · exact hpage

theorem steady (hproper : t.schema.Proper) : t.Steady t.Filing where
  proper := hproper
  stands h := h.stands
  binds h := h.binds
  advances h hadvances := h.advances hadvances

theorem spared (h : t.Filing s) (hspared : t.Spared s s') : t.Filing s' := by
  have hbacked := h.backed.spared hspared
  refine ⟨hbacked.stands, hbacked.binds, hbacked.safe, fun f hf n hn => ?_, hbacked.there⟩
  rw [hspared.store]
  exact h.numbered f (hspared.pages.numbered f hf n hn) n hn

/-- Every run of calls keeps the page files in order. -/
theorem runs (hproper : t.schema.Proper) (h : t.Filing s) (hruns : t.Runs s s') : t.Filing s' := by
  induction hruns with
  | refl => exact h
  | call _ hc ih => exact ((steady hproper).call hc _ ih).1
  | spared _ hs ih => exact ih.spared hs

/-- After all pages have been written every page is in its file, and the files are those of the
pages. -/
theorem persist (h : t.Filing s) (hproper : t.schema.Proper) {count : Nat}
    (hrun : t.persist.run s = (.ok count, s')) :
    t.Filing s' ∧ Shelf.Saved t.keyType t.primaryIndex (t.shelf s') ∧
      Disk.Lists t.database t.name (t.store s').lastPage s'.disk.directory := by
  have hfiling : t.Filing s' := by
    have hkept := ((steady hproper).persist s h).1
    rwa [hrun] at hkept
  obtain ⟨hbacked, hsaved⟩ := h.backed.persist hproper hrun
  exact ⟨hfiling, hsaved, fun n hpos hle => hbacked.mem_names hsaved hpos hle, hfiling.numbered⟩

end Filing

end Table

end PageDb
