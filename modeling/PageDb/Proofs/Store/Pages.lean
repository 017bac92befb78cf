import PageDb.Proofs.Store.Persistence

/-!
The rows of one page.

The rows that a page has, in memory or in its file, are those of the contents that are positioned on
it.  When every page is in its file, the files together hold the contents and nothing else.
-/

namespace PageDb

variable {t : ColumnType} {primary exempt last n : Nat} {index : Index Slot}
  {page : Nat → Option Page} {file : Nat → Option (List Row)} {rows : List Row}

/-- The rows of a page are those of the contents that are positioned on it, each once. -/
structure Fills (t : ColumnType) (primary : Nat) (contents : SortedMap Entry Row) (n : Nat)
    (rows : List Row) : Prop where
  keyed : ∀ r ∈ rows, r.Keyed t primary
  distinct : rows.Pairwise fun a b => (a.keyAt primary).same (b.keyAt primary) = false
  mem : ∀ r, r ∈ rows ↔ r ∈ contents.values ∧ r.position = n

theorem mem_values_contentsOf {r : Row} :
    r ∈ (contentsOf primary index file).values ↔
      ∃ k slot, (k, slot) ∈ index.toList ∧ slot.row primary file k = r := by
  simp only [contentsOf, SortedMap.values, List.map_map, List.mem_map, Function.comp_apply,
    Prod.exists]

/-- The bindings of the rows of a page are those of the contents that are positioned on it. -/
theorem Fills.mem_bindings {contents : SortedMap Entry Row} (h : Fills t primary contents n rows)
    (hkeys : ∀ b ∈ contents.toList, b.1 = b.2.keyAt primary) {b : Entry × Row} :
    b ∈ rows.map (fun r => (r.keyAt primary, r)) ↔ b ∈ contents.toList ∧ b.2.position = n := by
  rw [List.mem_map]
  constructor
  · rintro ⟨r, hr, rfl⟩
    obtain ⟨hvalues, hposition⟩ := (h.mem r).1 hr
    obtain ⟨b, hb, rfl⟩ := List.mem_map.1 hvalues
    rw [← hkeys b hb]
    exact ⟨hb, hposition⟩
  · rintro ⟨hb, hposition⟩
    refine ⟨b.2, (h.mem b.2).2 ⟨List.mem_map_of_mem hb, hposition⟩, ?_⟩
    rw [← hkeys b hb]

/-- The rows of a page have keys that differ. -/
theorem Fills.distinct_bindings {contents : SortedMap Entry Row}
    (h : Fills t primary contents n rows) :
    SortedMap.Distinct (Entry.fits t) (rows.map fun r => (r.keyAt primary, r)) := by
  constructor
  · intro b hb
    obtain ⟨r, hr, rfl⟩ := List.mem_map.1 hb
    exact (h.keyed r hr).fits
  · exact List.pairwise_map.2 (h.distinct.imp Entry.same_eq_false_iff.1)

namespace Agree

/-- The row that a key finds is on the page that its slot says. -/
theorem position_of_slot (h : Agree t primary exempt last index page file) {k : Entry}
    (hfits : k.fits t) {slot : Slot} (hget : index.get? k = some slot) :
    (slot.row primary file k).position = slot.page := by
  cases slot with
  | resident row => rfl
  | evicted m =>
    obtain ⟨⟨hpage, stored, hstored, r, hr, hsame⟩, hpos, hle⟩ := h.found hfits hget
    have honFile := h.onFile hpage hpos hle hstored
    rw [honFile.row_eq hstored hr hfits hsame]
    exact (honFile.keyed r hr).2.1

/-- A row of the contents is on the page that its slot says. -/
theorem position_row (h : Agree t primary exempt last index page file) {k : Entry} {slot : Slot}
    (hslot : (k, slot) ∈ index.toList) : (slot.row primary file k).position = slot.page :=
  h.position_of_slot (h.ascending.holds _ hslot)
    (SortedMap.get?_of_mem (Entry.orderedOn_fits t) h.ascending hslot)

/-- A row that a key finds through its slot is one of the contents. -/
theorem mem_values_of_slot (h : Agree t primary exempt last index page file) {k : Entry}
    (hk : k.fits t) {slot : Slot} (hslot : index.get? k = some slot) {r : Row}
    (hrow : ∀ j, j.fits t → k.same j = true → slot.row primary file j = r) :
    r ∈ (contentsOf primary index file).values := by
  obtain ⟨j, hmem, hcompare⟩ :=
    (SortedMap.get?_eq_some_iff (Entry.orderedOn_fits t) h.ascending hk).1 hslot
  have hj := h.ascending.holds _ hmem
  exact mem_values_contentsOf.2 ⟨j, slot, hmem, hrow j hj (Entry.same_iff.2 hcompare)⟩

theorem fills_inMemory (h : Agree t primary exempt last index page file) {p : Page}
    (hp : page n = some p) :
    Fills t primary (contentsOf primary index file) n (Store.pageRows index p) := by
  refine ⟨fun r hr => (h.mem_pageRows hp hr).1, h.distinct_pageRows hp, fun r => ?_⟩
  constructor
  · intro hr
    obtain ⟨hkeyed, hposition, hslot⟩ := h.mem_pageRows hp hr
    exact ⟨h.mem_values_of_slot hkeyed.fits hslot fun _ _ _ => rfl, hposition⟩
  · rintro ⟨hr, hposition⟩
    obtain ⟨k, slot, hslot, rfl⟩ := mem_values_contentsOf.1 hr
    have hfits := h.ascending.holds _ hslot
    have hget := SortedMap.get?_of_mem (Entry.orderedOn_fits t) h.ascending hslot
    have hpage := h.position_row hslot
    rw [hposition] at hpage
    obtain ⟨hfound, -⟩ := h.found hfits hget
    -- the page is in memory, so the slot is resident and the page lists its key
    cases slot with
    | resident row =>
      obtain ⟨-, -, q, hq, hlists⟩ := hfound
      rw [← show n = row.position from hpage, hp] at hq
      obtain rfl := Option.some.inj hq
      obtain ⟨j, hj, hsame⟩ := Page.lists_iff.1 hlists
      refine Store.mem_pageRows.2 ⟨j, hj, ?_⟩
      show index.get? j = some (.resident row)
      exact (SortedMap.get?_congr (Entry.orderedOn_fits t) h.ascending ((h.inMemory hp).fits hj) hfits
        (Entry.same_iff.1 hsame)).trans hget
    | evicted m =>
      obtain rfl : n = m := hpage
      have hnone := hfound.1
      rw [hp] at hnone
      cases hnone

theorem fills_onFile (h : Agree t primary exempt last index page file) (hpage : page n = none)
    (hn : 0 < n ∧ n ≤ last) (hfile : file n = some rows) :
    Fills t primary (contentsOf primary index file) n rows := by
  have honFile := h.onFile hpage hn.1 hn.2 hfile
  refine ⟨fun r hr => (honFile.keyed r hr).1, honFile.distinct, fun r => ?_⟩
  constructor
  · intro hr
    obtain ⟨hkeyed, hposition, hslot⟩ := honFile.keyed r hr
    exact ⟨h.mem_values_of_slot hkeyed.fits hslot fun j hj => honFile.row_eq hfile hr hj, hposition⟩
  · rintro ⟨hr, hposition⟩
    obtain ⟨k, slot, hslot, rfl⟩ := mem_values_contentsOf.1 hr
    have hfits := h.ascending.holds _ hslot
    have hget := SortedMap.get?_of_mem (Entry.orderedOn_fits t) h.ascending hslot
    have hposition' := h.position_row hslot
    rw [hposition] at hposition'
    obtain ⟨hfound, -⟩ := h.found hfits hget
    cases slot with
    | resident row =>
      obtain ⟨-, -, q, hq, -⟩ := hfound
      rw [← show n = row.position from hposition', hpage] at hq
      cases hq
    | evicted m =>
      obtain rfl : n = m := hposition'
      obtain ⟨-, stored, hstored, r, hr, hsame⟩ := hfound
      obtain rfl : rows = stored := Option.some.inj (hfile.symm.trans hstored)
      rwa [honFile.row_eq hfile hr hfits hsame]

end Agree

namespace Shelf

variable {sh : Shelf}

/-- Every page is in its file. -/
def Saved (t : ColumnType) (primary : Nat) (sh : Shelf) : Prop :=
  ∀ n, 0 < n → n ≤ sh.store.lastPage → sh.Filed n ∧
    ∃ rows, sh.stored? n = some rows ∧ Fills t primary (sh.rows primary) n rows

/-- After all pages have been written every page is in its file: those in memory were written, and
the others were when they left memory. -/
theorem Sound.saved_persist (h : Sound t primary 0 sh)
    (hsafe : ∀ n, 0 < n → n ≤ sh.store.lastPage → sh.Safe n) {count : Nat} {sh' : Shelf}
    (hrun : Shelf.persist.run sh = (.ok count, sh')) :
    Sound t primary 0 sh' ∧ Moves primary sh sh' ∧ Saved t primary sh' := by
  obtain ⟨r, sh₁, hrun₁, hsound, hmoves, hwritten⟩ := h.persist
  rw [hrun] at hrun₁
  cases hrun₁
  refine ⟨hsound, hmoves, fun n hpos hle => ?_⟩
  cases hp : sh'.store.pages.get? n with
  | some p =>
    obtain ⟨hmatches, hfiled⟩ := hwritten count rfl n p hp
    exact ⟨hfiled, _, hmatches, hsound.agree.fills_inMemory hp⟩
  | none =>
    have hbefore : n ≤ sh.store.lastPage := hmoves.lastPage ▸ hle
    have hfiled : sh'.Filed n := by
      rcases hmoves.safe n hpos hbefore (hsafe n hpos hbefore) with ⟨p, hp', -⟩ | hfiled
      · rw [hp] at hp'
        cases hp'
      · exact hfiled
    obtain ⟨rows, hrows, -⟩ := hsound.agree.filed hp hpos hle
    exact ⟨hfiled, rows, hrows, hsound.agree.fills_onFile hp ⟨hpos, hle⟩ hrows⟩

end Shelf

end PageDb
