import PageDb.Proofs.Store.Plain
import PageDb.Proofs.Table.Calls

/-!
New tables, and runs of calls on tables that keep to themselves.

A table that is created stands and is empty, and the tables apart from it do not notice.  Calls on
one of several orderly tables keep them all orderly.
-/

namespace PageDb

/-- The tablespace with an empty table. -/
def Tablespace.create (s : Tablespace) (config : Config) (t : Table) : Tablespace :=
  s.addStore t.number (config.newStore t.database t.name)

namespace Table

variable {t u : Table} {s : Tablespace}

theorem shelf_create (s : Tablespace) (config : Config) (t : Table) :
    t.shelf (s.create config t) = ⟨config.newStore t.database t.name, s.disk⟩ :=
  t.shelf_withShelf s ⟨config.newStore t.database t.name, s.disk⟩

theorem store_create_of_ne (h : t.number ≠ u.number) (s : Tablespace) (config : Config) :
    u.store (s.create config t) = u.store s :=
  store_withShelf_of_ne h s ⟨config.newStore t.database t.name, s.disk⟩

theorem stands_create (config : Config) (t : Table) (hordered : s.disk.directory.Ordered) :
    t.Stands (s.create config t) := by
  have hshelf := shelf_create s config t
  have hstore : t.store (s.create config t) = config.newStore t.database t.name :=
    congrArg Shelf.store hshelf
  refine ⟨by rw [hstore]; rfl, by rw [hstore]; rfl, ?_⟩
  rw [hshelf]
  exact Shelf.sound_new _ _ _ _ _ hordered

theorem contents_create (s : Tablespace) (config : Config) (t : Table) :
    t.contents (s.create config t) = ∅ := by
  rw [contents, shelf_create]
  rfl

/-- A table does not notice when one with another number is created. -/
theorem Stands.create (h : u.Stands s) (hne : t.number ≠ u.number) (config : Config) :
    u.Stands (s.create config t) ∧ u.contents (s.create config t) = u.contents s := by
  have hstore := store_create_of_ne hne s config
  have hshelf : u.shelf (s.create config t) = u.shelf s := by
    rw [shelf, hstore]
    rfl
  refine ⟨⟨?_, ?_, ?_⟩, ?_⟩
  · rw [hstore, h.database]
  · rw [hstore, h.table]
  · rw [hshelf]
    exact h.sound
  · rw [contents, hshelf, contents]

/-- Calls on tables, one after the other. -/
def runAll (calls : List (Table × TableCall)) (s : Tablespace) : Tablespace :=
  calls.foldl (fun s c => ((c.1.call c.2).run s).2) s

end Table

namespace Tablespace

variable {tables : List Table} {t : Table} {s : Tablespace}

theorem orderly_nil (s : Tablespace) : Orderly [] s :=
  ⟨by simp [Table.AllApart], by simp, by simp, by simp⟩

theorem Orderly.mono (h : Orderly tables s) {tables' : List Table} (hsubset : tables' ⊆ tables) :
    Orderly tables' s :=
  ⟨h.apart.mono hsubset, fun t ht => h.stands t (hsubset ht), fun t ht => h.proper t (hsubset ht),
    fun t ht => h.binds t (hsubset ht)⟩

/-- Tables do not notice when one with a number of its own is created. -/
theorem Orderly.beside (h : Orderly tables s) (hnumber : ∀ u ∈ tables, t.number ≠ u.number)
    (config : Config) : Orderly tables (s.create config t) := by
  have hold (u : Table) (hu : u ∈ tables) := (h.stands u hu).create (hnumber u hu) config
  refine ⟨h.apart, fun u hu => (hold u hu).1, h.proper, fun u hu => ?_⟩
  rw [(hold u hu).2]
  exact h.binds u hu

/-- Creating a table apart from the others keeps all of them orderly. -/
theorem Orderly.create (h : Orderly tables s) (hordered : s.disk.directory.Ordered)
    (hproper : t.schema.Proper) (hapart : ∀ u ∈ tables, t.Apart u ∧ u.Apart t) (config : Config) :
    Orderly (t :: tables) (s.create config t) := by
  have hold := h.beside (fun u hu => (hapart u hu).1.number) config
  refine ⟨?_, List.forall_mem_cons.2 ⟨Table.stands_create config t hordered, hold.stands⟩,
    List.forall_mem_cons.2 ⟨hproper, h.proper⟩, List.forall_mem_cons.2 ⟨?_, hold.binds⟩⟩
  · intro u hu v hv
    rcases List.mem_cons.1 hu with rfl | hin <;> rcases List.mem_cons.1 hv with rfl | hin'
    · exact .inl rfl
    · exact .inr (hapart v hin').1
    · exact .inr (hapart u hin).2
    · exact h.apart u hin v hin'
  · rw [Table.contents_create]
    simp

/-- Work on one of the tables keeps them all orderly. -/
theorem steady_orderly (ht : t ∈ tables) (hproper : t.schema.Proper) : t.Steady (Orderly tables) where
  proper := hproper
  stands h := h.stands t ht
  binds h := h.binds t ht
  advances {s s'} h hadvances := by
    have hothers (u : Table) (hu : u ∈ tables) (hne : t ≠ u) :=
      hadvances.others u (h.stands u hu) ((h.apart t ht u hu).resolve_left hne)
    refine ⟨h.apart, fun u hu => ?_, h.proper, fun u hu => ?_⟩
    · by_cases heq : t = u
      · exact heq ▸ hadvances.stands
      · exact (hothers u hu heq).1
    · by_cases heq : t = u
      · exact heq ▸ hadvances.shelf.binds
      · rw [(hothers u hu heq).2]
        exact h.binds u hu

/-- A run of calls on the tables keeps them orderly. -/
theorem Orderly.runAll (h : Orderly tables s) {calls : List (Table × TableCall)}
    (hcalls : ∀ c ∈ calls, c.1 ∈ tables ∧ c.2.Typed c.1) : Orderly tables (Table.runAll calls s) := by
  induction calls generalizing s with
  | nil => exact h
  | cons c rest ih =>
    obtain ⟨ht, htyped⟩ := hcalls c (by simp)
    exact ih ((steady_orderly ht (h.proper _ ht)).call htyped s h).1
      fun d hd => hcalls d (by simp [hd])

end Tablespace

end PageDb
