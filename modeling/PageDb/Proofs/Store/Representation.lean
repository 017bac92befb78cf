import PageDb.Proofs.Store.Loading
import PageDb.Proofs.Store.Plain

/-!
What holds of a store, its pages and its files in every reachable state.

`Consistent` says it view by view, in terms of the bindings of the index, the lists of keys of the
pages, the images of the page files and the visits of the replacer.  A store is reached by any calls
and by loading pages in the order of their numbers.
-/

namespace PageDb

variable {t : ColumnType} {primary : Nat} {sh : Shelf}

/-- Rows that are those of the file of the next page, or none if there is no such file. -/
def Shelf.NextFile (sh : Shelf) (rows : List Row) : Prop :=
  match sh.image? (sh.store.lastPage + 1) with
  | none => rows = []
  | some image => PageImage.decode image = .ok rows

/-- The shelves that calls and loads lead to from a new store. -/
inductive Reachable (t : ColumnType) (primary : Nat) : Shelf → Prop where
  | new (config : Config) (database table : String) {disk : Disk}
      (hdisk : disk.directory.Ordered) :
      Reachable t primary ⟨config.newStore database table, disk⟩
  | call {sh : Shelf} {c : StoreCall} (h : Reachable t primary sh) (hc : c.Typed t primary) :
      Reachable t primary ((Shelf.call primary c).run sh).2
  | load {sh : Shelf} {rows : List Row} (h : Reachable t primary sh) (hrows : sh.NextFile rows)
      (hfits : ∀ r ∈ rows, ∀ key, r.entries[primary]? = some key → key.fits t) :
      Reachable t primary ((Shelf.insertPage rows primary).run sh).2

theorem Reachable.after {calls : List StoreCall} (h : Reachable t primary sh)
    (hcalls : ∀ c ∈ calls, c.Typed t primary) :
    Reachable t primary (Shelf.after primary calls sh) := by
  induction calls generalizing sh with
  | nil => exact h
  | cons c rest ih => exact ih (h.call (hcalls c (by simp))) fun d hd => hcalls d (by simp [hd])

/-- The views of a store do not disagree. -/
structure Consistent (primary : Nat) (sh : Shelf) : Prop where
  live : sh.store.index = some sh.index
  /-- A resident slot has its key as primary entry, and lies on a page in memory that lists the key
  once.  No other page lists it. -/
  resident : ∀ key row, (key, .resident row) ∈ sh.index.toList →
    (∃ entry, row.entries[primary]? = some entry ∧ entry.same key = true) ∧
    ∃ p, sh.store.pages.get? row.position = some p ∧
      p.keys.countP (fun k => k.same key) = 1 ∧
      ∀ n q, sh.store.pages.get? n = some q → n ≠ row.position → q.lists key = false
  /-- What a page in memory lists has a resident slot on that page. -/
  listed : ∀ n p key, sh.store.pages.get? n = some p → key ∈ p.keys →
    ∃ spelled row, (spelled, .resident row) ∈ sh.index.toList ∧ spelled.same key = true ∧
      row.position = n
  /-- The page of an evicted slot is not in memory, and its file has the key once. -/
  evicted : ∀ key n, (key, .evicted n) ∈ sh.index.toList →
    sh.store.pages.get? n = none ∧ ∃ image rows, sh.image? n = some image ∧
      PageImage.decode image = .ok rows ∧
      rows.countP (fun r => (r.keyAt primary).same key) = 1
  /-- A page counts the bytes of its rows, one for each key that it lists. -/
  size : ∀ n p, sh.store.pages.get? n = some p → p.number = n ∧
    (Store.pageRows sh.index p).length = p.keys.length ∧
    p.size = rowBytes (Store.pageRows sh.index p)
  /-- The file of a page that is not marked as changed holds its rows. -/
  clean : ∀ n p, sh.store.pages.get? n = some p → p.dirty = false →
    match sh.image? n with
    | none => p.keys = []
    | some image => ∃ rows, PageImage.decode image = .ok rows ∧
        rows.map (fun r => r.placedOn n) = Store.pageRows sh.index p
  /-- The replacer knows the pages in memory by their last visits, and counts those not pinned. -/
  replacer : (∀ n, sh.store.replacer.visits.get? n =
      (sh.store.pages.get? n).map fun p => ⟨p.lastVisit, !p.pinned⟩) ∧
    sh.store.replacer.evictable = sh.store.pages.count fun p => !p.pinned

/-! ## Counting keys -/

/-- Among distinct keys a key that is there is there once. -/
theorem countP_same_eq_one {α : Type} {f : α → Entry} {l : List α} {key : Entry}
    (hfits : ∀ a ∈ l, (f a).fits t) (hkey : key.fits t)
    (hdistinct : l.Pairwise fun a b => (f a).same (f b) = false)
    (hmem : ∃ a ∈ l, (f a).same key = true) : l.countP (fun a => (f a).same key) = 1 := by
  induction l with
  | nil => simp at hmem
  | cons a rest ih =>
    have ha := hfits a (by simp)
    rw [List.countP_cons]
    by_cases hsame : (f a).same key = true
    · have hrest : rest.countP (fun b => (f b).same key) = 0 := by
        refine List.countP_eq_zero.2 fun b hb => ?_
        have hne := List.rel_of_pairwise_cons hdistinct hb
        have hb' := hfits b (by simp [hb])
        rw [Entry.same_congr_left ha hkey hb' hsame, Entry.same_comm hkey hb'] at hne
        simp [hne]
      simp [hrest, hsame]
    · obtain ⟨b, hb, hb'⟩ := hmem
      have hb : b ∈ rest := by
        rcases List.mem_cons.1 hb with rfl | hb
        · exact absurd hb' hsame
        · exact hb
      simp [hsame, ih (fun c hc => hfits c (by simp [hc])) hdistinct.of_cons ⟨b, hb, hb'⟩]

theorem SortedMap.count_mapValues {κ ν ω : Type} (q : ω → Bool) (f : ν → ω) (m : SortedMap κ ν) :
    (m.mapValues f).count q = m.count fun v => q (f v) := by
  simp [SortedMap.count, SortedMap.mapValues, List.countP_map, Function.comp_def]

/-! ## Consistency -/

namespace Shelf

/-- A binding of the index, as the agreement of the views has it. -/
theorem Sound.found (h : Sound t primary 0 sh) {key : Entry} {slot : Slot}
    (hmem : (key, slot) ∈ sh.index.toList) :
    key.fits t ∧ sh.index.get? key = some slot ∧
      Found t primary sh.store.pages.get? sh.stored? key slot ∧ 0 < slot.page ∧
      slot.page ≤ sh.store.lastPage := by
  have hfits := h.agree.ascending.holds _ hmem
  have hget := SortedMap.get?_of_mem (Entry.orderedOn_fits t) h.agree.ascending hmem
  exact ⟨hfits, hget, h.agree.found hfits hget⟩

/-- Every key on a page in memory has a row. -/
theorem Sound.length_pageRows (h : Sound t primary 0 sh) {n : Nat} {p : Page}
    (hp : sh.store.pages.get? n = some p) :
    (Store.pageRows sh.index p).length = p.keys.length := by
  have hlisted := (h.agree.inMemory hp).listed
  unfold Store.pageRows
  revert hlisted
  generalize p.keys = keys
  intro hlisted
  induction keys with
  | nil => rfl
  | cons k rest ih =>
    obtain ⟨-, row, hrow, -⟩ := hlisted k (by simp)
    simp only [List.filterMap_cons, Store.residentRow?_eq_some_iff.2 hrow, List.length_cons,
      ih fun j hj => hlisted j (by simp [hj])]

/-- The replacer has exactly the pages in memory. -/
theorem Sound.visits_eq (h : Sound t primary 0 sh) :
    sh.store.replacer.visits = sh.store.pages.mapValues Page.seen :=
  SortedMap.ext_of_get? h.tracks.counted.ascending (h.pages.mapValues _) fun n => by
    rw [h.tracks.seen, SortedMap.get?_mapValues]

/-- A sound shelf is consistent. -/
theorem Sound.consistent (h : Sound t primary 0 sh) : Consistent primary sh where
  live := h.live
  resident := by
    intro key row hmem
    obtain ⟨hkey, hget, ⟨⟨entry, hentry, hfits⟩, hsame, p, hp, hlists⟩, -⟩ := h.found hmem
    have hkeyAt : row.keyAt primary = entry := by simp [Row.keyAt, hentry]
    refine ⟨⟨entry, hentry, hkeyAt ▸ hsame⟩, p, hp, ?_, fun n q hq hne => ?_⟩
    · exact countP_same_eq_one (f := id) (fun k hk => (h.agree.inMemory hp).fits hk) hkey
        (h.agree.inMemory hp).distinct (Page.lists_iff.1 hlists)
    · rw [← Bool.not_eq_true, h.agree.lists_iff hq hkey]
      rintro ⟨row', hrow', rfl⟩
      obtain rfl : row = row' := by simpa [hget] using hrow'
      exact hne rfl
  listed := by
    intro n p key hp hkey
    obtain ⟨hfits, row, hrow, hposition⟩ := (h.agree.inMemory hp).listed key hkey
    obtain ⟨spelled, hmem, hcompare⟩ :=
      (SortedMap.get?_eq_some_iff (Entry.orderedOn_fits t) h.agree.ascending hfits).1 hrow
    have hspelled := h.agree.ascending.holds _ hmem
    refine ⟨spelled, row, hmem, ?_, hposition⟩
    rw [Entry.same_comm hspelled hfits]
    exact Entry.same_iff.2 hcompare
  evicted := by
    intro key n hmem
    obtain ⟨hkey, hget, ⟨hnone, rows, hstored, r, hr, hsame⟩, hpos, hle⟩ := h.found hmem
    have honFile := h.agree.onFile hnone hpos hle hstored
    obtain ⟨-, rfl⟩ | ⟨image, decoded, himage, hdecode, rfl⟩ := stored?_eq_some_iff.1 hstored
    · simp at hr
    refine ⟨hnone, image, decoded, himage, hdecode, ?_⟩
    have hone := countP_same_eq_one (f := fun r => r.keyAt primary)
      (fun r hr => (honFile.keyed r hr).1.fits) hkey honFile.distinct ⟨r, hr, hsame⟩
    simpa [List.countP_map, Function.comp_def] using hone
  size := by
    intro n p hp
    exact ⟨(h.agree.inMemory hp).number, h.length_pageRows hp, (h.agree.inMemory hp).size⟩
  clean := by
    intro n p hp hdirty
    have hpos := (h.agree.within hp).1
    have hmatches := h.agree.clean hp hdirty (by omega)
    obtain ⟨himage, hrows⟩ | ⟨image, decoded, himage, hdecode, hrows⟩ :=
      stored?_eq_some_iff.1 hmatches
    · have hlength := h.length_pageRows hp
      rw [hrows, List.length_nil] at hlength
      simp only [himage]
      exact List.eq_nil_of_length_eq_zero hlength.symm
    · simp only [himage]
      exact ⟨decoded, hdecode, hrows.symm⟩
  replacer := by
    refine ⟨h.tracks.seen, ?_⟩
    rw [h.tracks.counted.count, h.visits_eq, SortedMap.count_mapValues]
    rfl

/-- The rows of the file of the next page are what is stored for it. -/
theorem NextFile.stored {rows : List Row} (h : sh.NextFile rows) :
    sh.stored? (sh.store.lastPage + 1) =
      some (rows.map fun r => r.placedOn (sh.store.lastPage + 1)) := by
  unfold NextFile at h
  rw [stored?_eq_some_iff]
  split at h
  · rename_i himage
    exact .inl ⟨himage, by simp [h]⟩
  · rename_i image himage
    exact .inr ⟨image, rows, himage, h, rfl⟩

end Shelf

/-- Loading the file of the next page keeps a shelf sound, whether the rows are refused or not. -/
theorem Shelf.Sound.load (h : Shelf.Sound t primary 0 sh) {rows : List Row} (hrows : sh.NextFile rows)
    (hfits : ∀ r ∈ rows, ∀ key, r.entries[primary]? = some key → key.fits t) :
    Shelf.Sound t primary 0 ((Shelf.insertPage rows primary).run sh).2 := by
  by_cases hfresh : Fresh t primary sh.index rows
  · obtain ⟨resident, sh', hrun, hloaded⟩ := h.insertPage hrows.stored hfresh
    rw [hrun]
    exact hloaded.sound
  · obtain ⟨e, hrun⟩ := h.insertPage_error hfits hfresh
    rw [hrun]
    exact h

/-- Every step of a run keeps the shelf sound. -/
theorem Reachable.sound (h : Reachable t primary sh) : Shelf.Sound t primary 0 sh := by
  induction h with
  | new config database table hdisk => exact Shelf.sound_new t primary config database table hdisk
  | call _ hc ih =>
    obtain ⟨r, sh', hrun, hsound, -⟩ := ih.call hc
    rw [hrun]
    exact hsound
  | load _ hrows hfits ih => exact ih.load hrows hfits

/-- In every reachable state the index, the pages in memory, their lists of keys, the replacer and
the page files are consistent. -/
theorem consistent_of_reachable (h : Reachable t primary sh) : Consistent primary sh :=
  h.sound.consistent

/-- An empty page is loaded, two rows go to pages of their own while one page may be in memory and
the second write is refused, and the first row is read back. -/
theorem consistent_after_eviction :
    Consistent 0 (Shelf.after 0
      [.insert [.int 1, .text "left"] false, .insert [.int 2, .null] false,
        .update (.int 1) [0] [.int 3] true, .get (.int 2)]
      ((Shelf.insertPage [] 0).run ⟨({ budget := 4, cap := 1 } : Config).newStore "shop" "items",
        { outages := [false, true] }⟩).2) := by
  refine consistent_of_reachable (t := .int) (.after (.load (.new _ _ _ ?_) ?_ (by simp)) ?_)
  · exact Directory.ordered_empty
  · simp only [Shelf.NextFile, Shelf.image?, Directory.read?_empty]
  · simp [StoreCall.Typed, Entry.fits, Entry.type?]

end PageDb
