import PageDb.Proofs.Store.Changes
import PageDb.Proofs.Store.Settling

/-!
The rows that a store holds, wherever they are.

`contentsOf` looks through the slots: the row of an evicted page is the one in the file of the page.
Evicting, writing and reading back leave the contents alone, and every change of a row is the same
change of the contents.
-/

namespace PageDb

/-- The row of a key with the given slot. -/
def Slot.row (primary : Nat) (file : Nat → Option (List Row)) (k : Entry) : Slot → Row
  | .resident row => row
  | .evicted n =>
    (((file n).getD []).find? fun r => (r.keyAt primary).same k).getD { entries := [] }

/-- The rows of all keys. -/
def contentsOf (primary : Nat) (index : Index Slot) (file : Nat → Option (List Row)) :
    SortedMap Entry Row :=
  ⟨index.toList.map fun b => (b.1, b.2.row primary file b.1)⟩

theorem keys_contentsOf (primary : Nat) (index : Index Slot) (file : Nat → Option (List Row)) :
    (contentsOf primary index file).keys = index.keys := by
  simp [contentsOf, SortedMap.keys]

variable {t : ColumnType} {primary exempt exempt' last last' n : Nat} {index index' : Index Slot}
  {page page' : Nat → Option Page} {file file' : Nat → Option (List Row)} {rows : List Row}

/-- The row that a slot in file stands for is the only one there with its key. -/
theorem OnFile.row_eq (h : OnFile t primary index n rows) (hfile : file n = some rows) {r : Row}
    (hr : r ∈ rows) {k : Entry} (hk : k.fits t) (hsame : (r.keyAt primary).same k = true) :
    (Slot.evicted n).row primary file k = r := by
  simp only [Slot.row, hfile, Option.getD_some]
  have hsome : (rows.find? fun r => (r.keyAt primary).same k).isSome :=
    List.find?_isSome.2 ⟨r, hr, hsame⟩
  obtain ⟨x, hx⟩ := Option.isSome_iff_exists.1 hsome
  rw [hx, Option.getD_some]
  have hxsame := List.find?_some hx
  have hxmem := List.mem_of_find?_eq_some hx
  have hfr := (h.keyed r hr).1.fits
  have hfx := (h.keyed x hxmem).1.fits
  have hxr : (x.keyAt primary).same (r.keyAt primary) = true := by
    rw [← Entry.same_congr_right hfx hk hfr (by rw [Entry.same_comm hk hfr, hsame])]
    exact hxsame
  have hrx : (r.keyAt primary).same (x.keyAt primary) = true := by
    rw [Entry.same_comm hfr hfx, hxr]
  -- two places of the list with the same key are one place
  obtain ⟨i, hi, rfl⟩ := List.getElem_of_mem hr
  obtain ⟨j, hj, rfl⟩ := List.getElem_of_mem hxmem
  have hpairs := List.pairwise_iff_getElem.1 h.distinct
  rcases Nat.lt_trichotomy i j with hij | hij | hij
  · rw [hpairs i j hi hj hij] at hrx
    cases hrx
  · simp [hij]
  · rw [hpairs j i hj hi hij] at hxr
    cases hxr

namespace Agree

theorem get?_contentsOf (h : Agree t primary exempt last index page file) {k : Entry}
    (hk : k.fits t) :
    (contentsOf primary index file).get? k = (index.get? k).map (Slot.row primary file k) := by
  simp only [contentsOf, SortedMap.get?, SortedMap.find?_map, Option.map_map]
  cases hb : SortedMap.find? k index.toList with
  | none => rfl
  | some b =>
    obtain ⟨hmem, hcompare⟩ := SortedMap.mem_of_find? hb
    have hfits := h.ascending.holds b hmem
    have hget := SortedMap.get?_of_mem (Entry.orderedOn_fits t) h.ascending hmem
    simp only [Option.map_some, Function.comp_apply, Option.some.injEq]
    cases hslot : b.2 with
    | resident row => rfl
    | evicted n =>
      rw [hslot] at hget
      obtain ⟨⟨hpage, rows, hrows, r, hr, hsame⟩, hpos, hle⟩ := h.found hfits hget
      have honFile := h.onFile hpage hpos hle hrows
      have hkb : b.1.same k = true := by
        rw [Entry.same_comm hfits hk]
        exact Entry.same_iff.2 hcompare
      rw [honFile.row_eq hrows hr hfits hsame, honFile.row_eq hrows hr hk]
      rw [← Entry.same_congr_right (honFile.keyed r hr).1.fits hfits hk hkb, hsame]

theorem ascending_contentsOf (h : Agree t primary exempt last index page file) :
    (contentsOf primary index file).Ascending (Entry.fits t) :=
  SortedMap.ascendingList_of_keys (keys_contentsOf primary index file) h.ascending

/-- Two states of a store hold the same rows if they have the same keys and each key has the same
row. -/
theorem contentsOf_congr (h : Agree t primary exempt last index page file)
    (h' : Agree t primary exempt' last' index' page' file') (hkeys : index'.keys = index.keys)
    (hrow : ∀ k, k.fits t → (index'.get? k).map (Slot.row primary file' k) =
      (index.get? k).map (Slot.row primary file k)) :
    contentsOf primary index' file' = contentsOf primary index file := by
  refine SortedMap.ext_get? (Entry.orderedOn_fits t) h.ascending_contentsOf ?_ fun k hk => ?_
  · rw [keys_contentsOf, keys_contentsOf, hkeys]
  · rw [h'.get?_contentsOf hk, h.get?_contentsOf hk, hrow k hk]

/-- A row in the file of an evicted page, through the slot of its key. -/
theorem row_of_evicted (h : Agree t primary exempt last index page file) (hpage : page n = none)
    (hn : 0 < n ∧ n ≤ last) (hfile : file n = some rows) {r : Row} (hr : r ∈ rows) {k : Entry}
    (hk : k.fits t) (hsame : (r.keyAt primary).same k = true) :
    (Slot.evicted n).row primary file k = r :=
  (h.onFile hpage hn.1 hn.2 hfile).row_eq hfile hr hk hsame

/-- Evicting a page that matches its file leaves the contents alone. -/
theorem contentsOf_evict (h : Agree t primary exempt last index page file) {p : Page}
    (hp : page n = some p) (hmatches : Matches index file n p)
    (h' : Agree t primary exempt last (index.overwrite (evictedSlots n p.keys)) page' file)
    (hpage' : page' n = none) :
    contentsOf primary (index.overwrite (evictedSlots n p.keys)) file =
      contentsOf primary index file := by
  have hsettles := h.settles_evict hp
  refine h.contentsOf_congr h' (index.keys_overwrite _) fun k hk => ?_
  rcases hsettles.cases h.ascending hk with ⟨r, hr, hsame, hnew, hold⟩ | ⟨-, hkept⟩
  · rw [hnew, hold, (h.mem_pageRows hp hr).2.2]
    simp only [Option.map_some, Option.some.injEq]
    exact h'.row_of_evicted hpage' (h.within hp) hmatches hr hk hsame
  · rw [hkept]

/-- Reading a page back leaves the contents alone. -/
theorem contentsOf_reinstate (h : Agree t primary exempt last index page file)
    (hpage : page n = none) (hn : 0 < n ∧ n ≤ last) (hfile : file n = some rows)
    (h' : Agree t primary exempt' last (index.overwrite (slotsOf primary .resident rows)) page'
      file) :
    contentsOf primary (index.overwrite (slotsOf primary .resident rows)) file =
      contentsOf primary index file := by
  have hsettles := h.settles_reinstate hpage hn hfile
  refine h.contentsOf_congr h' (index.keys_overwrite _) fun k hk => ?_
  rcases hsettles.cases h.ascending hk with ⟨r, hr, hsame, hnew, hold⟩ | ⟨-, hkept⟩
  · rw [hnew, hold, ((h.onFile hpage hn.1 hn.2 hfile).keyed r hr).2.2]
    simp only [Option.map_some, Option.some.injEq]
    exact (h.row_of_evicted hpage hn hfile hr hk hsame).symm
  · rw [hkept]

/-- Writing a page in memory leaves the contents alone. -/
theorem contentsOf_write (h : Agree t primary exempt last index page file) {p : Page}
    (hp : page n = some p) (hfile : ∀ m, m ≠ n → file' m = file m)
    (h' : Agree t primary exempt' last index page' file') :
    contentsOf primary index file' = contentsOf primary index file := by
  refine h.contentsOf_congr h' rfl fun k hk => ?_
  cases hget : index.get? k with
  | none => rfl
  | some slot =>
    cases slot with
    | resident row => rfl
    | evicted m =>
      have hm : m ≠ n := by
        rintro rfl
        obtain ⟨⟨hpage, -⟩, -⟩ := h.found hk hget
        simp [hpage] at hp
      simp [Slot.row, hfile m hm]

/-- A row of the contents has the key it is found under. -/
theorem keyed_of_get?_contentsOf (h : Agree t primary exempt last index page file) {k : Entry}
    (hk : k.fits t) {row : Row} (hrow : (contentsOf primary index file).get? k = some row) :
    row.Keyed t primary ∧ (row.keyAt primary).same k = true ∧
      0 < row.position ∧ row.position ≤ last := by
  rw [h.get?_contentsOf hk, Option.map_eq_some_iff] at hrow
  obtain ⟨slot, hslot, rfl⟩ := hrow
  obtain ⟨hfound, hrange⟩ := h.found hk hslot
  cases slot with
  | resident row => exact ⟨hfound.1, hfound.2.1, hrange⟩
  | evicted m =>
    obtain ⟨hpage, rows, hrows, r, hr, hsame⟩ := hfound
    have honFile := h.onFile hpage hrange.1 hrange.2 hrows
    rw [honFile.row_eq hrows hr hk hsame]
    exact ⟨(honFile.keyed r hr).1, hsame, (honFile.keyed r hr).2.1 ▸ hrange⟩

/-! ## Changes of rows -/

theorem contentsOf_insert (h : Agree t primary exempt last index page file) {k : Entry}
    (hk : k.fits t) (row : Row)
    (h' : Agree t primary exempt' last' (index.insert k (.resident row)) page' file) :
    contentsOf primary (index.insert k (.resident row)) file =
      (contentsOf primary index file).insert k row := by
  have hP := Entry.orderedOn_fits t
  refine SortedMap.ext_get? hP (h.ascending_contentsOf.insert hP hk row) ?_ fun j hj => ?_
  · rw [keys_contentsOf]
    exact SortedMap.keys_insert_congr (keys_contentsOf primary index file).symm k row _
  · rw [h'.get?_contentsOf hj, SortedMap.get?_insert hP h.ascending hk hj,
      SortedMap.get?_insert hP h.ascending_contentsOf hk hj, h.get?_contentsOf hj]
    split <;> rfl

theorem contentsOf_erase (h : Agree t primary exempt last index page file) {k : Entry}
    (hk : k.fits t) (h' : Agree t primary exempt' last' (index.erase k) page' file) :
    contentsOf primary (index.erase k) file = (contentsOf primary index file).erase k := by
  have hP := Entry.orderedOn_fits t
  refine SortedMap.ext_get? hP (h.ascending_contentsOf.erase k) ?_ fun j hj => ?_
  · rw [keys_contentsOf]
    exact SortedMap.keys_erase_congr (keys_contentsOf primary index file).symm k
  · rw [h'.get?_contentsOf hj, SortedMap.get?_erase hP h.ascending hk hj,
      SortedMap.get?_erase hP h.ascending_contentsOf hk hj, h.get?_contentsOf hj]
    split <;> rfl

theorem contentsOf_modify (h : Agree t primary exempt last index page file) {k : Entry}
    (hk : k.fits t) (row : Row)
    (h' : Agree t primary exempt' last' (index.modify k fun _ => .resident row) page' file) :
    contentsOf primary (index.modify k fun _ => .resident row) file =
      (contentsOf primary index file).modify k fun _ => row := by
  have hP := Entry.orderedOn_fits t
  refine SortedMap.ext_get? hP (h.ascending_contentsOf.modify k _) ?_ fun j hj => ?_
  · rw [keys_contentsOf, SortedMap.keys_modify, SortedMap.keys_modify, keys_contentsOf]
  · rw [h'.get?_contentsOf hj, SortedMap.get?_modify hP h.ascending hk hj,
      SortedMap.get?_modify hP h.ascending_contentsOf hk hj, h.get?_contentsOf hj]
    split
    · cases index.get? j <;> rfl
    · rfl

theorem contentsOf_rename (h : Agree t primary exempt last index page file) {k new : Entry}
    (hk : k.fits t) (hnew : new.fits t) (row : Row)
    (h' : Agree t primary exempt' last'
      (((index.modify k fun _ => .resident row).erase k).insert new (.resident row)) page' file) :
    contentsOf primary
        (((index.modify k fun _ => .resident row).erase k).insert new (.resident row)) file =
      ((contentsOf primary index file).erase k).insert new row := by
  have hP := Entry.orderedOn_fits t
  rw [SortedMap.erase_modify] at h' ⊢
  have hcontents := h.ascending_contentsOf.erase k
  refine SortedMap.ext_get? hP (hcontents.insert hP hnew row) ?_ fun j hj => ?_
  · rw [keys_contentsOf]
    exact SortedMap.keys_insert_congr
      (SortedMap.keys_erase_congr (keys_contentsOf primary index file).symm k) new row _
  · rw [h'.get?_contentsOf hj, SortedMap.get?_insert_erase hP h.ascending hk hnew hj,
      SortedMap.get?_insert_erase hP h.ascending_contentsOf hk hnew hj, h.get?_contentsOf hj]
    split
    · rfl
    split <;> rfl

/-- Loading a page adds its rows, whether they stay in memory or not. -/
theorem contentsOf_load (h : Agree t primary exempt last index page file) (slot : Row → Slot)
    (hsettles : Settles t primary slot n rows index (index.insertAll (slotsOf primary slot rows)))
    (h' : Agree t primary exempt' last' (index.insertAll (slotsOf primary slot rows)) page' file)
    (hrow : ∀ r ∈ rows, ∀ k, k.fits t → (r.keyAt primary).same k = true →
      (slot r).row primary file k = r) :
    contentsOf primary (index.insertAll (slotsOf primary slot rows)) file =
      (contentsOf primary index file).insertAll (rows.map fun r => (r.keyAt primary, r)) := by
  have hP := Entry.orderedOn_fits t
  have hrows : SortedMap.Distinct (Entry.fits t) (rows.map fun r => (r.keyAt primary, r)) := by
    constructor
    · intro b hb
      obtain ⟨r, hr, rfl⟩ := List.mem_map.1 hb
      exact (hsettles.keyed r hr).1.fits
    · exact List.pairwise_map.2 (hsettles.distinct.imp Entry.same_eq_false_iff.1)
  have hcontents := h.ascending_contentsOf.insertAll hP hrows.holds
  refine SortedMap.ext_get? hP hcontents ?_ fun k hk => ?_
  · rw [keys_contentsOf]
    exact SortedMap.keys_insertAll_congr _ _ _ rows (keys_contentsOf primary index file).symm
  · rw [h'.get?_contentsOf hk]
    rcases hsettles.cases h.ascending hk with ⟨r, hr, hsame, hnew, -⟩ | ⟨hnone, hkept⟩
    · have hfits := (hsettles.keyed r hr).1.fits
      rw [hnew, ← SortedMap.get?_congr hP hcontents hfits hk (Entry.same_iff.1 hsame)]
      have hmem : (r.keyAt primary, r) ∈ rows.map fun r => (r.keyAt primary, r) :=
        List.mem_map_of_mem (f := fun r => (r.keyAt primary, r)) hr
      rw [SortedMap.get?_insertAll_of_mem hP h.ascending_contentsOf hrows hmem, Option.map_some,
        hrow r hr k hk hsame]
    · have hne : ∀ b ∈ rows.map (fun r => (r.keyAt primary, r)), compare k b.1 ≠ .eq := by
        intro b hb
        obtain ⟨r, hr, rfl⟩ := List.mem_map.1 hb
        have hne := hnone r hr
        rw [Entry.same_comm (hsettles.keyed r hr).1.fits hk] at hne
        exact Entry.same_eq_false_iff.1 hne
      rw [hkept, SortedMap.get?_insertAll_of_ne hP h.ascending_contentsOf hrows.holds hk hne,
        h.get?_contentsOf hk]

end Agree

/-- Rows that lie under their own keys are different rows. -/
theorem nodup_values_of_keyed {t : ColumnType} (primary : Nat) {rows : SortedMap Entry Row}
    (hascending : rows.Ascending (Entry.fits t))
    (hkeyed : ∀ {k row}, k.fits t → rows.get? k = some row →
      row.Keyed t primary ∧ (row.keyAt primary).same k = true) : rows.values.Nodup := by
  refine List.pairwise_map.2 (hascending.increasing.imp_of_mem ?_)
  intro b c hb hc hlt heq
  have hfits := hascending.holds
  have hgetb := SortedMap.get?_of_mem (Entry.orderedOn_fits t) hascending hb
  have hgetc := SortedMap.get?_of_mem (Entry.orderedOn_fits t) hascending hc
  obtain ⟨hbkeyed, hsameb⟩ := hkeyed (hfits b hb) hgetb
  obtain ⟨-, hsamec⟩ := hkeyed (hfits c hc) hgetc
  rw [← heq, Entry.same_congr_left hbkeyed.fits (hfits b hb) (hfits c hc) hsameb, Entry.same_iff,
    hlt] at hsamec
  cases hsamec

end PageDb
