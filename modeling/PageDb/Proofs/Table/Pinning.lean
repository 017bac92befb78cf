import PageDb.Proofs.Store.Pinning
import PageDb.Proofs.Table.Creation
import PageDb.Proofs.Table.Separation

/-!
The pinned pages of tables.

`Tablespace.Pins` says for every table which pages are held, and whether any page may be pinned.
Reading tables keeps it, and so does writing one whose pages may be pinned.  Only unpinning a table
lets go of its pages.
-/

namespace PageDb

namespace Tablespace

/-- A page of the table with the given number is pinned in memory. -/
def Pinned (s : Tablespace) (n page : Nat) : Prop :=
  ∃ store, s.stores.get? n = some store ∧ store.Pinned page

instance (s : Tablespace) (n page : Nat) : Decidable (s.Pinned n page) :=
  decidable_of_iff ((s.stores.get? n).any (fun store => store.Pinned page) = true)
    (by simp [Option.any_eq_true, Pinned])

/-- The pages of `held` are pinned and stay so, and only tables of `may` have pinned pages. -/
structure Pins (held : Nat → Nat → Prop) (may : Nat → Prop) (s : Tablespace) : Prop where
  stores : ∀ n store, s.stores.get? n = some store → store.Pins (held n) (may n)
  there : ∀ n page, held n page → (s.stores.get? n).isSome

variable {held held' : Nat → Nat → Prop} {may may' : Nat → Prop} {s : Tablespace} {n page : Nat}
  {α : Type} {P : α → Prop} {t : Table}

namespace Pins

theorem pinned (h : s.Pins held may) (hheld : held n page) : s.Pinned n page := by
  obtain ⟨store, hstore⟩ := Option.isSome_iff_exists.1 (h.there n page hheld)
  exact ⟨store, hstore, (h.stores n store hstore).pinned page hheld⟩

theorem may_of_pinned (h : s.Pins held may) (hpinned : s.Pinned n page) : may n := by
  obtain ⟨store, hstore, hpage⟩ := hpinned
  exact (h.stores n store hstore).may_of_pinned hpage

theorem mono (h : s.Pins held may) (hheld : ∀ n page, held' n page → held n page)
    (hmay : ∀ n page, s.Pinned n page → may' n) : s.Pins held' may' := by
  refine ⟨fun n store hstore => ?_, fun n page hpage => h.there n page (hheld n page hpage)⟩
  have hstored := (h.stores n store hstore).mono (hheld n) id
  exact { hstored with
    numbered := fun m p hp =>
      ⟨(hstored.numbered m p hp).1, fun hp' => hmay n m ⟨store, hstore, p, hp, hp'⟩⟩ }

/-- The store of a table, which is empty if the table is not there. -/
theorem store (h : s.Pins held may) (t : Table) : (t.store s).Pins (held t.number) (may t.number) := by
  unfold Table.store
  cases hstore : s.stores.get? t.number with
  | some store => exact h.stores t.number store hstore
  | none =>
    have hnone (page : Nat) (hpage : held t.number page) : False := by
      have hthere := h.there t.number page hpage
      rw [hstore] at hthere
      cases hthere
    exact (Store.pins_of_empty rfl Replacer.counted_empty (may t.number)).mono hnone id

theorem insert (h : s.Pins held may) {store : Store} (hstore : store.Pins (held n) (may n))
    (disk : Disk) : Pins held may { stores := s.stores.insert n store, disk := disk } := by
  have hother {m : Nat} (hm : m ≠ n) :
      (s.stores.insert n store).get? m = s.stores.get? m :=
    SortedMap.get?_insert_of_ne _ _ fun heq => hm (Std.LawfulEqOrd.eq_of_compare heq)
  refine ⟨fun m other hm => ?_, fun m page hpage => ?_⟩
  · dsimp only at hm
    by_cases hmn : m = n
    · subst hmn
      rw [SortedMap.get?_insert_self] at hm
      exact Option.some.inj hm ▸ hstore
    · rw [hother hmn] at hm
      exact h.stores m other hm
  · dsimp only
    by_cases hmn : m = n
    · rw [hmn, SortedMap.get?_insert_self]
      rfl
    · rw [hother hmn]
      exact h.there m page hpage

/-- A new table has no pages. -/
theorem addStore (h : s.Pins held may) (hnone : ∀ page, ¬ held n page) (config : Config)
    (database table : String) : (s.addStore n (config.newStore database table)).Pins held may :=
  h.insert ((Store.pins_of_empty rfl Replacer.counted_empty (may n)).mono hnone id) s.disk

/-- After a table has been unpinned it has no pinned pages, and the others are as they were. -/
theorem unpin (h : s.Pins held may) (n : Nat) :
    (s.unpin n).Pins (fun m page => m ≠ n ∧ held m page) fun m => m ≠ n ∧ may m := by
  have hget (m : Nat) : (s.unpin n).stores.get? m =
      if m = n then (s.stores.get? m).map Store.unpin else s.stores.get? m :=
    SortedMap.get?_modify_eq _ _ _ _
  refine ⟨fun m store hstore => ?_, fun m page hpage => ?_⟩
  · rw [hget] at hstore
    split at hstore
    · rename_i hm
      obtain ⟨old, hold, rfl⟩ := Option.map_eq_some_iff.1 hstore
      exact (h.stores m old hold).unpin.mono (fun _ hpage => hpage.1 hm) False.elim
    · rename_i hm
      exact (h.stores m store hstore).mono (fun _ hpage => hpage.2) fun hmay => ⟨hm, hmay⟩
  · rw [hget, if_neg hpage.1]
    exact h.there m page hpage.2

end Pins

/-- A page stays pinned when another table is unpinned. -/
theorem Pinned.unpin (h : s.Pinned n page) {m : Nat} (hm : n ≠ m) : (s.unpin m).Pinned n page := by
  obtain ⟨store, hstore, hpage⟩ := h
  have hget : (s.unpin m).stores.get? n =
      if n = m then (s.stores.get? n).map Store.unpin else s.stores.get? n :=
    SortedMap.get?_modify_eq _ _ _ _
  rw [if_neg hm] at hget
  exact ⟨store, hget.trans hstore, hpage⟩

theorem keeps_onStore (t : Table) {action : Action Shelf α}
    (ha : Action.Keeps (Shelf.Pins (held t.number) (may t.number)) action P) :
    Action.Keeps (Pins held may) (t.onStore action) P := by
  intro s hs
  obtain ⟨hafter, hpost⟩ := ha (t.shelf s) (hs.store t)
  exact ⟨hs.insert hafter _, hpost⟩

/-- Reading tables keeps the pins. -/
theorem readsRespect_pins : ReadsRespect (fun _ => True) (Action.Same (Pins held may)) where
  store := by
    rintro t s _ - ⟨rfl, -⟩
    rfl
  get _ key := (keeps_onStore _ (Shelf.keeps_getRow key _)).respects

/-! ## Orderly tables -/

/-- The pages of orderly tables that are pinned stay pinned. -/
theorem Orderly.pins {tables : List Table} (h : Orderly tables s)
    (hpins : s.Pins (fun _ _ => False) may) :
    s.Pins (fun n page => (∃ t ∈ tables, t.number = n) ∧ s.Pinned n page) may := by
  refine ⟨fun n store hstore => ?_, fun n page hpage => ?_⟩
  · have hold := hpins.stores n store hstore
    by_cases htable : ∃ t ∈ tables, t.number = n
    · obtain ⟨t, ht, rfl⟩ := htable
      have hshelf : (t.shelf s).store = store := by
        rw [Table.shelf, Table.store, hstore]
        rfl
      have hsound : (t.shelf s).Pins (t.shelf s).store.Pinned (may t.number) :=
        (h.stands t ht).sound.pins fun page hpage => hold.may_of_pinned (hshelf ▸ hpage)
      rw [Shelf.Pins, hshelf] at hsound
      refine hsound.mono (fun page hpage => ?_) id
      obtain ⟨-, other, hother, hpinned⟩ := hpage
      exact Option.some.inj (hstore.symm.trans hother) ▸ hpinned
    · exact hold.mono (fun _ hpage => htable hpage.1) id
  · obtain ⟨-, store, hstore, -⟩ := hpage
    rw [hstore]
    rfl

/-- Unpinning any number keeps tables orderly. -/
theorem Orderly.unpin {tables : List Table} (h : Orderly tables s) (n : Nat) :
    Orderly tables (s.unpin n) := by
  by_cases htable : ∃ t ∈ tables, t.number = n
  · obtain ⟨t, ht, rfl⟩ := htable
    exact (steady_orderly ht (h.proper t ht)).unpin h
  · -- no store of the tables has the number
    have hsame (u : Table) (hu : u ∈ tables) :
        u.Stands (s.unpin n) ∧ u.contents (s.unpin n) = u.contents s := by
      have hne : u.number ≠ n := fun heq => htable ⟨u, hu, heq⟩
      refine (h.stands u hu).unaffected ?_ (h.stands u hu).ordered fun _ => rfl
      simp [Table.store, Tablespace.unpin, SortedMap.get?_modify_eq, hne]
    refine ⟨h.apart, fun u hu => (hsame u hu).1, h.proper, fun u hu => ?_⟩
    rw [(hsame u hu).2]
    exact h.binds u hu

end Tablespace

/-- Writing a table keeps the pins, if the table may have pinned pages or the writes pin none. -/
theorem Table.writesRespect_pins {held : Nat → Nat → Prop} {may : Nat → Prop} {t : Table} {pin : Bool}
    (hpin : pin = true → may t.number) :
    t.WritesRespect pin (Action.Same (Tablespace.Pins held may)) where
  insertRow entries :=
    (Tablespace.keeps_onStore t (Shelf.keeps_insertRow entries _ hpin)).respects
  deleteRow key := (Tablespace.keeps_onStore t (Shelf.keeps_deleteRow key _ hpin)).respects
  updateRow key targets values :=
    (Tablespace.keeps_onStore t (Shelf.keeps_updateRow key _ targets values hpin)).respects

end PageDb
