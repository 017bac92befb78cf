import PageDb.Proofs.Store.Touching
import PageDb.Proofs.Table.Pinning

/-!
The pages that changes of a table touch, and that they are pinned.

`Table.Covers` says that the page of every row that a table has lost, gained or changed since it had
the given rows is pinned.  Work on the table with pinning keeps that, whether it fails or not.
-/

namespace PageDb

open PageDb.Action (Keeps)

namespace Tablespace

variable {tables : List Table} {may : Nat → Prop} {s : Tablespace} {t : Table} {α : Type}
  {P : α → Prop}

/-- Getting rows changes the contents of no table. -/
theorem readsRespect_holds (hapart : Table.AllApart tables) (rows : Table → SortedMap Entry Row) :
    ReadsRespect (· ∈ tables) (Action.Same (Holds tables rows)) where
  store := by
    rintro t s _ - ⟨rfl, -⟩
    rfl
  get ht key := by
    apply Keeps.respects (P := fun _ => True)
    intro s hs
    obtain ⟨s', hrun, hs'⟩ := hs.get hapart ht key
    rw [hrun]
    exact ⟨hs', fun _ _ => trivial⟩

/-- Getting rows keeps what the work on the tables keeps. -/
theorem readsRespect_of_steady {I : Tablespace → Prop} (h : ∀ t ∈ tables, t.Steady I) :
    ReadsRespect (· ∈ tables) (Action.Same I) where
  store := by
    rintro t s _ - ⟨rfl, -⟩
    rfl
  get ht key := ((h _ ht).get key).respects

/-- What keeps pins leaves every page of orderly tables pinned that was. -/
theorem Orderly.pinned_of_keeps (h : Orderly tables s) (hpins : s.Pins (fun _ _ => False) may)
    {a : Action Tablespace α} (ha : ∀ held, Keeps (Pins held may) a P) (ht : t ∈ tables) {page : Nat}
    (hpage : s.Pinned t.number page) : (a.run s).2.Pinned t.number page :=
  (ha _ s (h.pins hpins)).1.pinned ⟨⟨t, ht, rfl⟩, hpage⟩

end Tablespace

namespace Table

/-- The pages of the rows that a predicate accepts. -/
def acceptedPages (t : Table) (p : Option Predicate) (s : Tablespace) : List Nat :=
  match ((t.matchingKeys p).run s).1 with
  | .error _ => []
  | .ok keys =>
    ((t.contents s).toList.filter fun b => keys.any fun k => k.same b.1).map fun b => b.2.position

/-- The tables are orderly, and of one of them every page is pinned on which rows are not what they
were. -/
structure Covers (tables : List Table) (may : Nat → Prop) (t : Table) (rows : SortedMap Entry Row)
    (s : Tablespace) : Prop where
  orderly : Tablespace.Orderly tables s
  pins : s.Pins (fun _ _ => False) may
  changed : ∀ page ∈ changedPages rows (t.contents s), s.Pinned t.number page

variable {tables : List Table} {may : Nat → Prop} {t : Table} {rows : SortedMap Entry Row}
  {s s' : Tablespace} {α : Type} {P : α → Prop}

/-- At first no row is different. -/
theorem covers_self (h : Tablespace.Orderly tables s) (hpins : s.Pins (fun _ _ => False) may) :
    t.Covers tables may (t.contents s) s :=
  ⟨h, hpins, fun page hpage => absurd hpage (not_mem_changedPages_self page)⟩

/-- An action that covers its own changes keeps what is covered. -/
theorem keeps_covers (ht : t ∈ tables) {a : Action Tablespace α}
    (horderly : Keeps (Tablespace.Orderly tables) a P)
    (hpins : ∀ held, Keeps (Tablespace.Pins held may) a fun _ => True)
    (hchanged : ∀ s, Tablespace.Orderly tables s →
      ∀ page ∈ changedPages (t.contents s) (t.contents (a.run s).2), (a.run s).2.Pinned t.number page) :
    Keeps (t.Covers tables may rows) a P := by
  intro s hs
  obtain ⟨hafter, hpost⟩ := horderly s hs.orderly
  refine ⟨⟨hafter, (hpins _ s hs.pins).1, fun page hpage => ?_⟩, hpost⟩
  rcases mem_changedPages_or (t.contents s) hpage with hbefore | hnow
  · exact hs.orderly.pinned_of_keeps hs.pins hpins ht (hs.changed page hbefore)
  · exact hchanged s hs.orderly page hnow

/-- Reading keeps what is covered: it keeps the pins and changes no row. -/
theorem keeps_covers_read (ht : t ∈ tables) {a : Action Tablespace α}
    (horderly : Keeps (Tablespace.Orderly tables) a P)
    (hreads : ∀ {p R}, Tablespace.ReadsRespect p R → p t → a.Respects R) :
    Keeps (t.Covers tables may rows) a P := by
  refine keeps_covers ht horderly (fun held => ?_) fun s hs page hpage => ?_
  · exact (hreads Tablespace.readsRespect_pins trivial).keeps
  · have hholds := Tablespace.readsRespect_holds hs.apart fun t => t.contents s
    have hsame := ((hreads hholds ht).keeps s hs.holds).1 t ht
    rw [hsame.2] at hpage
    exact absurd hpage (not_mem_changedPages_self page)

/-- Pins of a table with a shelf. -/
theorem pinned_withShelf {sh : Shelf} {page : Nat} :
    (t.withShelf s sh).Pinned t.number page ↔ sh.store.Pinned page := by
  simp [Tablespace.Pinned, withShelf, SortedMap.get?_insert_self]

/-- An operation on the rows of a table that covers its own changes. -/
theorem keeps_covers_onStore (ht : t ∈ tables) {a : Action Shelf Unit}
    (horderly : Keeps (Tablespace.Orderly tables) (t.onStore a) fun _ => True)
    (hpins : ∀ held, Keeps (Shelf.Pins held (may t.number)) a fun _ => True)
    (hchanged : ∀ sh, Shelf.Sound t.keyType t.primaryIndex 0 sh →
      ∀ page ∈ changedPages (sh.rows t.primaryIndex) ((a.run sh).2.rows t.primaryIndex),
        (a.run sh).2.store.Pinned page) :
    Keeps (t.Covers tables may rows) (t.onStore a) fun _ => True := by
  refine keeps_covers ht horderly (fun held => Tablespace.keeps_onStore t (hpins _)) ?_
  intro s hs page hpage
  have hafter : ((t.onStore a).run s).2 = t.withShelf s (a.run (t.shelf s)).2 := rfl
  rw [hafter, contents, contents, shelf_withShelf] at hpage
  rw [hafter, pinned_withShelf]
  exact hchanged (t.shelf s) (hs.stands t ht).sound page hpage

/-- Reading keeps what is covered, and so does adding, removing and changing single rows. -/
theorem upholds_covers (ht : t ∈ tables) (hproper : t.schema.Proper) (hmay : may t.number) :
    t.Upholds true (t.Covers tables may rows) (fun key => key.fits t.keyType)
      fun row => row.Fits t.schema where
  get key := keeps_covers_read ht ((Tablespace.steady_orderly ht hproper).get key) fun hreads ht =>
    hreads.get ht key
  keys := keeps_covers_read ht (Tablespace.steady_orderly ht hproper).keys fun hreads ht =>
    respects_keys hreads ht
  keyOf _ hrow := (hrow.primary hproper).1.fits
  insertRow := by
    intro values hfits
    have hrow : Row.Fits ⟨values, 0⟩ t.schema := hfits
    obtain ⟨⟨key, hkey, hkeyfits⟩, -⟩ := hrow.primary hproper
    apply keeps_covers_onStore ht ((Tablespace.steady_orderly ht hproper).insertRow hfits true)
    · intro held
      exact Shelf.keeps_insertRow values _ fun _ => hmay
    · intro sh hsound page hpage
      exact hsound.pinned_insertRow hkey hkeyfits rfl hpage
  delete := by
    intro key hkey
    apply keeps_covers_onStore ht ((Tablespace.steady_orderly ht hproper).delete hkey true)
    · intro held
      exact Shelf.keeps_deleteRow key _ fun _ => hmay
    · intro sh hsound page hpage
      exact hsound.pinned_deleteRow hkey rfl hpage
  setColumn := by
    intro key column value hkey hadmits
    have hone : ∀ a ∈ [column].zip [value], ∀ c, t.schema.columns[a.1]? = some c → c.Admits a.2 := by
      simpa using hadmits
    have hdistinct := List.nodup_singleton column
    apply keeps_covers_onStore ht
      ((Tablespace.steady_orderly ht hproper).updateRow hkey hdistinct hone true)
    · intro held
      exact Shelf.keeps_updateRow key _ _ _ fun _ => hmay
    · intro sh hsound
      exact (hsound.pinned_updateRow hkey hdistinct (hproper.fits_of_admits_one hadmits) rfl).1

/-! ## Updates -/

section Updates

variable {column : Nat} {value : Entry} (ht : t ∈ tables) (hproper : t.schema.Proper)
  (hmay : may t.number) (hadmits : ∀ c, t.schema.columns[column]? = some c → c.Admits value)

include ht hproper hmay hadmits

/-- The page of a row that is updated is pinned: either the row is as it was, and is pinned now, or it
was changed before. -/
theorem pinned_updateRow (h : t.Covers tables may rows s)
    (hrows : rows.Ascending (Entry.fits t.keyType)) {key : Entry} (hkey : key.fits t.keyType)
    (hrun : (t.onStore (Shelf.updateRow key t.primaryIndex [column] [value] true)).run s = (.ok (), s'))
    {b : Entry × Row} (hb : b ∈ rows.toList) (hsame : key.same b.1 = true) :
    s'.Pinned t.number b.2.position := by
  have hstands := h.orderly.stands t ht
  rcases hshelf : (Shelf.updateRow key t.primaryIndex [column] [value] true).run (t.shelf s) with
    ⟨r, sh⟩
  have hafter := hrun
  rw [run_onStore, hshelf] at hafter
  obtain ⟨rfl, rfl⟩ := Prod.mk.inj hafter
  obtain ⟨row, hrow, hpinned⟩ := (hstands.sound.pinned_updateRow hkey (List.nodup_singleton column)
    (hproper.fits_of_admits_one hadmits) hshelf).2 rfl
  by_cases hold : b ∈ (t.contents s).toList
  · have hget : (t.contents s).get? key = some b.2 := by
      rw [SortedMap.get?_congr (Entry.orderedOn_fits _) hstands.ascending hkey (hrows.holds b hb)
        (Entry.same_iff.1 hsame)]
      exact SortedMap.get?_of_mem (Entry.orderedOn_fits _) hstands.ascending hold
    obtain rfl : row = b.2 := Option.some.inj (hrow.symm.trans hget)
    exact pinned_withShelf.2 hpinned
  · have hpage := h.changed _ (mem_changedPages_iff.2 ⟨b, rfl, .inl ⟨hb, hold⟩⟩)
    have hwrites {held} : t.WritesRespect true (Action.Same (Tablespace.Pins held may)) :=
      Table.writesRespect_pins fun _ => hmay
    have hkept := h.orderly.pinned_of_keeps h.pins
      (fun held => (hwrites.updateRow key [column] [value]).keeps) ht hpage
    rw [hrun] at hkept
    exact hkept

/-- After an update of rows by their keys the pages of all of them are pinned. -/
theorem pinned_setEach (h : t.Covers tables may rows s)
    (hrows : rows.Ascending (Entry.fits t.keyType)) {keys : List Entry}
    (hkeys : ∀ k ∈ keys, k.fits t.keyType)
    (hrun : (t.setEach column value true keys).run s = (.ok (), s')) {key : Entry} (hkey : key ∈ keys)
    {b : Entry × Row} (hb : b ∈ rows.toList) (hsame : key.same b.1 = true) :
    s'.Pinned t.number b.2.position := by
  induction keys generalizing s with
  | nil => cases hkey
  | cons first rest ih =>
    obtain ⟨hfirst, hrest⟩ := List.forall_mem_cons.1 hkeys
    obtain ⟨_, s₁, hrun₁, hlater⟩ := Action.exists_of_run_bind hrun
    have h₁ : t.Covers tables may rows s₁ := by
      have hcovers := ((upholds_covers ht hproper hmay).setColumn hfirst hadmits s h).1
      rwa [hrun₁] at hcovers
    rcases List.mem_cons.1 hkey with rfl | hkey
    · have hnow := pinned_updateRow ht hproper hmay hadmits h hrows hfirst hrun₁ hb hsame
      have hwrites {held} : t.WritesRespect true (Action.Same (Tablespace.Pins held may)) :=
        Table.writesRespect_pins fun _ => hmay
      have hkept := h₁.orderly.pinned_of_keeps h₁.pins
        (fun held => (respects_setEach hwrites column value rest).keeps) ht hnow
      rw [hlater] at hkept
      exact hkept
    · exact ih h₁ hrest hlater hkey

end Updates

/-- An update that succeeds leaves the pages of all accepted rows pinned, also of those that have the
value already. -/
theorem pinned_updateWhere (ht : t ∈ tables) (hproper : t.schema.Proper) (hmay : may t.number)
    (h : Tablespace.Orderly tables s) (hpins : s.Pins (fun _ _ => False) may) {name : String}
    {operand : Operand} {p : Option Predicate} {count : Nat}
    (hrun : (t.updateWhere name operand p true).run s = (.ok count, s')) {page : Nat}
    (hpage : page ∈ t.acceptedPages p s) : s'.Pinned t.number page := by
  have hascending := (h.stands t ht).ascending
  obtain ⟨⟨column, value⟩, s₁, hfound, hrest⟩ := Action.exists_of_run_bind hrun
  obtain ⟨hvalue, rfl⟩ := Prod.mk.inj ((Action.run_lift _ s).symm.trans hfound)
  obtain ⟨keys, s₂, hkeys, hrest⟩ := Action.exists_of_run_bind hrest
  obtain ⟨_, s₃, hset, hrest⟩ := Action.exists_of_run_bind hrest
  obtain rfl : s₃ = s' := (Prod.mk.inj hrest).2
  obtain ⟨hcovers, hfits⟩ :=
    (upholds_covers ht hproper hmay).matchingKeys p s (covers_self h hpins)
  rw [hkeys] at hcovers hfits
  simp only [acceptedPages, hkeys, List.mem_map, List.mem_filter, List.any_eq_true] at hpage
  obtain ⟨b, ⟨hb, key, hkey, hsame⟩, rfl⟩ := hpage
  exact pinned_setEach ht hproper hmay (columnValue_admits hvalue) hcovers hascending
    (hfits keys rfl) hset hkey hb hsame

end Table

end PageDb
