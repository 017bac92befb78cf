import PageDb.Proofs.Table.Reopening

/-!
The tablespaces that a table comes to see.

`Table.Lived` begins where the table is created, over whatever files there are, and goes on with calls,
with the work of others, and with a new handle after all pages have been written.  All along the table
stands with rows that fit its schema, and every page is backed by a file: `Table.Lived.backed`.
-/

namespace PageDb

namespace Table

variable {t : Table} {target : SortedMap Entry Row} {last : Nat} {d : Directory} {s s' : Tablespace}

/-- A table that has been loaded is backed by the files it has been loaded from. -/
theorem HasLoaded.backed (h : t.HasLoaded target d last s) (ha : t.Archived target last d)
    (hbinds : ∀ b ∈ target.toList, t.schema.Binds b) : t.Backed s where
  stands := h.stands
  binds := by rwa [h.contents ha]
  safe n hpos hle := by
    obtain ⟨image, -, himage, -⟩ := ha.pages n hpos (h.lastPage ▸ hle)
    refine .inr ?_
    show (s.disk.directory.read? ((t.store s).fileName n)).isSome
    rw [h.stands.fileName, h.directory, himage]
    rfl
  there := h.directory ▸ ha.there

/-- A table that is opened again holds what it held, if the directory lists no pages but its own. -/
theorem Backed.reopen (h : t.Backed s) (hproper : t.schema.Proper) {count : Nat}
    (hpersist : t.persist.run s = (.ok count, s'))
    (hpages : (t.store s').pageCount < PageFile.numberLimit)
    (hlists : Disk.Lists t.database t.name (t.store s').pageCount s'.disk.directory)
    {space : Tablespace}
    (hspared : Directory.SparesPages t.database t.name s'.disk.directory space.disk.directory)
    (number : Nat) (config : Config) :
    ∃ s'', (t.withNumber number).recover.run (space.create config (t.withNumber number)) =
        (.ok (), s'') ∧ (t.withNumber number).Backed s'' := by
  obtain ⟨hbacked, hsaved⟩ := h.persist hproper hpersist
  have harchived := ((hbacked.archived hsaved hlists).spared hspared).withNumber number
  obtain ⟨s'', hrun, hloaded⟩ := harchived.recover hpages config
  exact ⟨s'', hrun, hloaded.backed harchived hbacked.binds⟩

/-- What a table comes to see: it is created, works, is left alone by others, and is opened again after
all its pages have been written where the directory lists no others. -/
inductive Lived : Table → Tablespace → Prop where
  | create {t : Table} {s : Tablespace} (config : Config) (hproper : t.schema.Proper)
      (hordered : s.disk.directory.Ordered) (hthere : s.disk.directory.files.isSome) :
      Lived t (s.create config t)
  | call {t : Table} {s : Tablespace} {c : TableCall} (h : Lived t s) (hc : c.Typed t) :
      Lived t ((t.call c).run s).2
  | spared {t : Table} {s s' : Tablespace} (h : Lived t s) (hs : t.Spared s s') : Lived t s'
  | reopen {t : Table} {s s' space : Tablespace} {count : Nat} (h : Lived t s)
      (hpersist : t.persist.run s = (.ok count, s'))
      (hpages : (t.store s').pageCount < PageFile.numberLimit)
      (hlists : Disk.Lists t.database t.name (t.store s').pageCount s'.disk.directory)
      (hspared : Directory.SparesPages t.database t.name s'.disk.directory space.disk.directory)
      (number : Nat) (config : Config) :
      Lived (t.withNumber number)
        ((t.withNumber number).recover.run (space.create config (t.withNumber number))).2

/-- All its life long a table is backed by files and holds rows that fit. -/
theorem Lived.backed (h : Lived t s) : t.schema.Proper ∧ t.Backed s := by
  induction h with
  | create config hproper hordered hthere => exact ⟨hproper, backed_create config hordered hthere⟩
  | call _ hc ih => exact ⟨ih.1, ((Backed.steady ih.1).call hc _ ih.2).1⟩
  | spared _ hs ih => exact ⟨ih.1, ih.2.spared hs⟩
  | reopen _ hpersist hpages hlists hspared number config ih =>
    obtain ⟨s'', hrun, hbacked⟩ := ih.2.reopen ih.1 hpersist hpages hlists hspared number config
    rw [hrun]
    exact ⟨ih.1, hbacked⟩

theorem Lived.calls (h : Lived t s) {calls : List TableCall} (hcalls : ∀ c ∈ calls, c.Typed t) :
    Lived t (calls.foldl (fun s c => ((t.call c).run s).2) s) := by
  induction calls generalizing s with
  | nil => exact h
  | cons c rest ih => exact ih (h.call (hcalls c (by simp))) fun d hd => hcalls d (by simp [hd])

end Table

end PageDb
