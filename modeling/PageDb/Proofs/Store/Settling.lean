import PageDb.Proofs.Store.Steps

/-!
How the index is changed when a page is evicted, read back or loaded.
-/

namespace PageDb

variable {t : ColumnType} {primary exempt last n : Nat} {index : Index Slot}
  {page : Nat → Option Page} {file : Nat → Option (List Row)} {rows : List Row}

/-- Keys with the slots of their rows. -/
def slotsOf (primary : Nat) (slot : Row → Slot) (rows : List Row) : List (Entry × Slot) :=
  rows.map fun r => (r.keyAt primary, slot r)

theorem mem_slotsOf {slot : Row → Slot} {r : Row} (hr : r ∈ rows) :
    (r.keyAt primary, slot r) ∈ slotsOf primary slot rows :=
  List.mem_map_of_mem hr

/-- Keys with the slot of an evicted page. -/
def evictedSlots (n : Nat) (keys : List Entry) : List (Entry × Slot) :=
  keys.map fun k => (k, .evicted n)

theorem distinct_slotsOf (slot : Row → Slot) (hkeyed : ∀ r ∈ rows, r.Keyed t primary)
    (hdistinct : rows.Pairwise fun a b => (a.keyAt primary).same (b.keyAt primary) = false) :
    SortedMap.Distinct (Entry.fits t) (slotsOf primary slot rows) := by
  constructor
  · intro b hb
    obtain ⟨r, hr, rfl⟩ := List.mem_map.1 hb
    exact (hkeyed r hr).fits
  · exact List.pairwise_map.2 (hdistinct.imp Entry.same_eq_false_iff.1)

theorem ne_of_mem_slotsOf {slot : Row → Slot} (hkeyed : ∀ r ∈ rows, r.Keyed t primary) {k : Entry}
    (hk : k.fits t) (hnone : ∀ r ∈ rows, (r.keyAt primary).same k = false) :
    ∀ b ∈ slotsOf primary slot rows, compare k b.1 ≠ .eq := by
  intro b hb
  obtain ⟨r, hr, rfl⟩ := List.mem_map.1 hb
  have hne := hnone r hr
  rw [Entry.same_comm (hkeyed r hr).fits hk] at hne
  exact Entry.same_eq_false_iff.1 hne

theorem distinct_evictedSlots {p : Page} (h : InMemory t index n p) :
    SortedMap.Distinct (Entry.fits t) (evictedSlots n p.keys) := by
  constructor
  · intro b hb
    obtain ⟨k, hk, rfl⟩ := List.mem_map.1 hb
    exact h.fits hk
  · exact List.pairwise_map.2 (h.distinct.imp Entry.same_eq_false_iff.1)

/-- Evicting a page gives its keys the slot of the page. -/
theorem Agree.settles_evict (h : Agree t primary exempt last index page file) {p : Page}
    (hp : page n = some p) :
    Settles t primary (fun _ => .evicted n) n (Store.pageRows index p) index
      (index.overwrite (evictedSlots n p.keys)) := by
  have hP := Entry.orderedOn_fits t
  have hdistinct := distinct_evictedSlots (h.inMemory hp)
  have hascending := h.ascending.overwrite (evictedSlots n p.keys)
  constructor
  case keyed => exact fun r hr => ⟨(h.mem_pageRows hp hr).1, (h.mem_pageRows hp hr).2.1⟩
  case distinct => exact h.distinct_pageRows hp
  case ascending => exact hascending
  case settled =>
    intro r hr
    obtain ⟨k, hk, hget⟩ := Store.mem_pageRows.1 hr
    obtain ⟨hkeyed, hsame, -⟩ := (h.found ((h.inMemory hp).fits hk) hget).1
    have hmem : (k, Slot.evicted n) ∈ evictedSlots n p.keys :=
      List.mem_map_of_mem (f := fun k => (k, Slot.evicted n)) hk
    rw [SortedMap.get?_congr hP hascending hkeyed.fits ((h.inMemory hp).fits hk)
      (Entry.same_iff.1 hsame)]
    exact SortedMap.get?_overwrite_of_mem hP h.ascending hdistinct hmem (by simp [hget])
  case kept =>
    intro k hk hnone
    refine SortedMap.get?_overwrite_of_ne hP h.ascending hdistinct.holds hk fun b hb => ?_
    obtain ⟨j, hj, rfl⟩ := List.mem_map.1 hb
    obtain ⟨hfits, row, hrow, -⟩ := (h.inMemory hp).listed j hj
    obtain ⟨hkeyed, hsame, -⟩ := (h.found hfits hrow).1
    have hne := hnone row (Store.mem_pageRows.2 ⟨j, hj, hrow⟩)
    rw [Entry.same_congr_left hkeyed.fits hfits hk hsame, Entry.same_comm hfits hk] at hne
    exact Entry.same_eq_false_iff.1 hne
  case there =>
    intro r hr s hs
    obtain ⟨-, hposition, hget⟩ := h.mem_pageRows hp hr
    rw [hget, Option.some.injEq] at hs
    exact hs ▸ hposition
  case all =>
    intro k hk s hs hpage
    have hfound := (h.found hk hs).1
    cases s with
    | evicted m =>
      obtain rfl : m = n := hpage
      simp [Found, hp] at hfound
    | resident row =>
      obtain ⟨-, hsame, -⟩ := hfound
      obtain ⟨j, hj, hjk⟩ := Page.lists_iff.1 ((h.lists_iff hp hk).2 ⟨row, hs, hpage⟩)
      refine ⟨row, Store.mem_pageRows.2 ⟨j, hj, ?_⟩, hsame⟩
      rw [← hs]
      exact SortedMap.get?_congr hP h.ascending ((h.inMemory hp).fits hj) hk (Entry.same_iff.1 hjk)

/-- Reading a page back gives the keys of its rows their rows. -/
theorem Agree.settles_reinstate (h : Agree t primary exempt last index page file)
    (hpage : page n = none) (hn : 0 < n ∧ n ≤ last) (hfile : file n = some rows) :
    Settles t primary .resident n rows index
      (index.overwrite (slotsOf primary .resident rows)) := by
  have hP := Entry.orderedOn_fits t
  have honFile := h.onFile hpage hn.1 hn.2 hfile
  have hkeyed : ∀ r ∈ rows, r.Keyed t primary := fun r hr => (honFile.keyed r hr).1
  have hdistinct := distinct_slotsOf .resident hkeyed honFile.distinct
  constructor
  case keyed => exact fun r hr => ⟨hkeyed r hr, (honFile.keyed r hr).2.1⟩
  case distinct => exact honFile.distinct
  case ascending => exact h.ascending.overwrite _
  case settled =>
    intro r hr
    exact SortedMap.get?_overwrite_of_mem hP h.ascending hdistinct (mem_slotsOf hr)
      (by simp [(honFile.keyed r hr).2.2])
  case kept =>
    intro k hk hnone
    exact SortedMap.get?_overwrite_of_ne hP h.ascending hdistinct.holds hk
      (ne_of_mem_slotsOf hkeyed hk hnone)
  case there =>
    intro r hr s hs
    rw [(honFile.keyed r hr).2.2, Option.some.injEq] at hs
    exact hs ▸ rfl
  case all =>
    intro k hk s hs hs'
    have hfound := (h.found hk hs).1
    cases s with
    | evicted m =>
      obtain rfl : m = n := hs'
      obtain ⟨-, stored, hstored, r, hr, hsame⟩ := hfound
      obtain rfl : rows = stored := by simpa [hfile] using hstored
      exact ⟨r, hr, hsame⟩
    | resident row =>
      obtain ⟨-, -, p, hp, -⟩ := hfound
      have hposition : row.position = n := hs'
      simp [hposition, hpage] at hp

/-- Loading a page adds the keys of its rows. -/
theorem Agree.settles_load (h : Agree t primary exempt last index page file) (slot : Row → Slot)
    (hkeyed : ∀ r ∈ rows, r.Keyed t primary ∧ r.position = last + 1)
    (hdistinct : rows.Pairwise fun a b => (a.keyAt primary).same (b.keyAt primary) = false)
    (hnew : ∀ r ∈ rows, index.get? (r.keyAt primary) = none) :
    Settles t primary slot (last + 1) rows index
      (index.insertAll (slotsOf primary slot rows)) := by
  have hP := Entry.orderedOn_fits t
  have hkeyed' : ∀ r ∈ rows, r.Keyed t primary := fun r hr => (hkeyed r hr).1
  have hslots := distinct_slotsOf slot hkeyed' hdistinct
  constructor
  case keyed => exact hkeyed
  case distinct => exact hdistinct
  case ascending => exact h.ascending.insertAll hP hslots.holds
  case settled =>
    intro r hr
    exact SortedMap.get?_insertAll_of_mem hP h.ascending hslots (mem_slotsOf hr)
  case kept =>
    intro k hk hnone
    exact SortedMap.get?_insertAll_of_ne hP h.ascending hslots.holds hk
      (ne_of_mem_slotsOf hkeyed' hk hnone)
  case there =>
    intro r hr s hs
    simp [hnew r hr] at hs
  case all =>
    intro k hk s hs hpage
    have hle := (h.found hk hs).2.2
    omega

/-- Opening a page changes no slot. -/
theorem Agree.settles_open (h : Agree t primary exempt last index page file) (slot : Row → Slot) :
    Settles t primary slot (last + 1) [] index index :=
  @Agree.settles_load t primary exempt last index page file [] h slot (by simp) .nil (by simp)

end PageDb
