import PageDb.Proofs.EntryOrder
import PageDb.Store.Rows

/-!
The agreement of the four views of a store: its index, its pages in memory, their lists of keys and
the page files.

`Agree` is what holds between operations.  `Agree.update` reduces each step to what it does to one
page: slots that lie on other pages stay, so whatever was true of those pages stays true.
-/

namespace PageDb

/-! ## Keys of rows and pages of slots -/

namespace Row

/-- The entry of a row in the primary column. -/
def keyAt (r : Row) (primary : Nat) : Entry := (r.entries[primary]?).getD .null

/-- Whether the row has a value of type `t`, or null, in the primary column. -/
def Keyed (r : Row) (t : ColumnType) (primary : Nat) : Prop :=
  ∃ key, r.entries[primary]? = some key ∧ key.fits t

theorem Keyed.key {r : Row} {t : ColumnType} {primary : Nat} (h : r.Keyed t primary) :
    r.key primary = .ok (r.keyAt primary) := by
  obtain ⟨key, hkey, -⟩ := h
  simp [Row.key, keyAt, hkey]

theorem Keyed.fits {r : Row} {t : ColumnType} {primary : Nat} (h : r.Keyed t primary) :
    (r.keyAt primary).fits t := by
  obtain ⟨key, hkey, hfits⟩ := h
  simpa [keyAt, hkey] using hfits

@[simp] theorem keyAt_placedOn (r : Row) (page primary : Nat) :
    (r.placedOn page).keyAt primary = r.keyAt primary := rfl

/-- Rows that are on a page already stay as they are when they are placed on it. -/
theorem map_placedOn {rows : List Row} {n : Nat} (h : ∀ r ∈ rows, r.position = n) :
    rows.map (fun r => r.placedOn n) = rows := by
  induction rows with
  | nil => rfl
  | cons r rest ih =>
    have hr : r.placedOn n = r := by rw [← h r (by simp)]; rfl
    rw [List.map_cons, hr, ih fun q hq => h q (by simp [hq])]

end Row

/-- The bytes of the texts of rows. -/
def rowBytes (rows : List Row) : Nat := rows.foldr (fun r bytes => r.byteSize + bytes) 0

@[simp] theorem rowBytes_append (rows more : List Row) :
    rowBytes (rows ++ more) = rowBytes rows + rowBytes more := by
  induction rows with
  | nil => simp [rowBytes]
  | cons r rest ih => simp only [rowBytes, List.cons_append, List.foldr_cons] at ih ⊢; omega

/-- The page that a slot is on. -/
def Slot.page : Slot → Nat
  | .resident row => row.position
  | .evicted page => page

namespace Store

theorem residentRow?_eq_some_iff {index : Index Slot} {key : Entry} {row : Row} :
    residentRow? index key = some row ↔ index.get? key = some (.resident row) := by
  unfold residentRow?
  split <;> simp_all

/-- The rows of a page depend only on the slots of its keys. -/
theorem pageRows_congr {index index' : Index Slot} {keys : List Entry} {p q : Page}
    (hp : p.keys = keys) (hq : q.keys = keys)
    (h : ∀ k ∈ keys, index'.get? k = index.get? k) : pageRows index' q = pageRows index p := by
  unfold pageRows
  rw [hp, hq]
  clear hp hq
  induction keys with
  | nil => rfl
  | cons k rest ih =>
    have hk := h k (by simp)
    simp [List.filterMap_cons, residentRow?, hk, ih fun j hj => h j (by simp [hj])]

theorem mem_pageRows {index : Index Slot} {p : Page} {row : Row} :
    row ∈ pageRows index p ↔ ∃ k ∈ p.keys, index.get? k = some (.resident row) := by
  simp [pageRows, residentRow?_eq_some_iff]

end Store

theorem Page.lists_iff {p : Page} {key : Entry} :
    p.lists key = true ↔ ∃ k ∈ p.keys, k.same key = true := by
  simp [Page.lists]

/-! ## The agreement -/

section Agreement

variable {t : ColumnType} {primary exempt exempt' last last' : Nat} {index index' : Index Slot}
  {page page' : Nat → Option Page} {file file' : Nat → Option (List Row)}

/-- The keys that a page in memory lists are distinct and have their rows on it, and the page counts
the bytes of those. -/
structure InMemory (t : ColumnType) (index : Index Slot) (n : Nat) (p : Page) : Prop where
  number : p.number = n
  listed : ∀ k ∈ p.keys, k.fits t ∧ ∃ row, index.get? k = some (.resident row) ∧ row.position = n
  distinct : p.keys.Pairwise fun a b => a.same b = false
  size : p.size = rowBytes (Store.pageRows index p)

/-- The rows in the file of an evicted page have distinct keys, which the index has on that page. -/
structure OnFile (t : ColumnType) (primary : Nat) (index : Index Slot) (n : Nat)
    (rows : List Row) : Prop where
  keyed : ∀ r ∈ rows, r.Keyed t primary ∧ r.position = n ∧
    index.get? (r.keyAt primary) = some (.evicted n)
  distinct : rows.Pairwise fun a b => (a.keyAt primary).same (b.keyAt primary) = false

/-- The file of a page holds its rows in their order. -/
def Matches (index : Index Slot) (file : Nat → Option (List Row)) (n : Nat) (p : Page) : Prop :=
  file n = some (Store.pageRows index p)

/-- What a slot says about the row of a key is so: a row is listed by its page in memory, and an
evicted row is in the file of its page, which is not in memory. -/
def Found (t : ColumnType) (primary : Nat) (page : Nat → Option Page)
    (file : Nat → Option (List Row)) (k : Entry) : Slot → Prop
  | .resident row =>
    row.Keyed t primary ∧ (row.keyAt primary).same k = true ∧
      ∃ p, page row.position = some p ∧ p.lists k = true
  | .evicted n =>
    page n = none ∧ ∃ rows, file n = some rows ∧ ∃ r ∈ rows, (r.keyAt primary).same k = true

/-- The index, the pages in memory and the page files agree.  Only the page `exempt`, which has just
been opened, may differ from its file without being marked; there is no page zero. -/
structure Agree (t : ColumnType) (primary exempt last : Nat) (index : Index Slot)
    (page : Nat → Option Page) (file : Nat → Option (List Row)) : Prop where
  ascending : index.Ascending (Entry.fits t)
  within : ∀ {n p}, page n = some p → 0 < n ∧ n ≤ last
  inMemory : ∀ {n p}, page n = some p → InMemory t index n p
  clean : ∀ {n p}, page n = some p → p.dirty = false → n ≠ exempt → Matches index file n p
  filed : ∀ {n}, page n = none → 0 < n → n ≤ last →
    ∃ rows, file n = some rows ∧ OnFile t primary index n rows
  found : ∀ {k slot}, k.fits t → index.get? k = some slot →
    Found t primary page file k slot ∧ 0 < slot.page ∧ slot.page ≤ last

/-- The rows that the file of an evicted page holds. -/
theorem Agree.onFile (h : Agree t primary exempt last index page file) {n : Nat} {rows : List Row}
    (hpage : page n = none) (hpos : 0 < n) (hle : n ≤ last) (hfile : file n = some rows) :
    OnFile t primary index n rows := by
  obtain ⟨stored, hstored, honFile⟩ := h.filed hpage hpos hle
  obtain rfl : rows = stored := by simpa [hfile] using hstored
  exact honFile

/-! ## What listing means -/

theorem InMemory.fits {n : Nat} {p : Page} (h : InMemory t index n p) {k : Entry}
    (hk : k ∈ p.keys) : k.fits t := (h.listed k hk).1

/-- A page lists the keys whose rows are on it. -/
theorem Agree.lists_iff (h : Agree t primary exempt last index page file) {n : Nat} {p : Page}
    (hp : page n = some p) {k : Entry} (hk : k.fits t) :
    p.lists k = true ↔ ∃ row, index.get? k = some (.resident row) ∧ row.position = n := by
  rw [Page.lists_iff]
  constructor
  · rintro ⟨j, hj, hsame⟩
    obtain ⟨hfits, row, hrow, hposition⟩ := (h.inMemory hp).listed j hj
    refine ⟨row, ?_, hposition⟩
    rw [← hrow]
    exact (SortedMap.get?_congr (Entry.orderedOn_fits t) h.ascending hfits hk
      (Entry.same_iff.1 hsame)).symm
  · rintro ⟨row, hrow, rfl⟩
    obtain ⟨-, -, q, hq, hlists⟩ := (h.found hk hrow).1
    obtain rfl : p = q := by simpa [hp] using hq
    exact Page.lists_iff.1 hlists

/-- The rows of a page in memory, their keys and their page. -/
theorem Agree.mem_pageRows (h : Agree t primary exempt last index page file) {n : Nat} {p : Page}
    (hp : page n = some p) {row : Row} (hrow : row ∈ Store.pageRows index p) :
    row.Keyed t primary ∧ row.position = n ∧
      index.get? (row.keyAt primary) = some (.resident row) := by
  obtain ⟨k, hk, hget⟩ := Store.mem_pageRows.1 hrow
  obtain ⟨hfits, row', hrow', hposition⟩ := (h.inMemory hp).listed k hk
  obtain rfl : row = row' := by simpa [hget] using hrow'
  obtain ⟨hkeyed, hsame, -⟩ := (h.found hfits hget).1
  refine ⟨hkeyed, hposition, ?_⟩
  rw [← hget]
  exact SortedMap.get?_congr (Entry.orderedOn_fits t) h.ascending hkeyed.fits hfits
    (Entry.same_iff.1 hsame)

/-- The rows of a page in memory have distinct keys. -/
theorem Agree.distinct_pageRows (h : Agree t primary exempt last index page file) {n : Nat}
    {p : Page} (hp : page n = some p) :
    (Store.pageRows index p).Pairwise
      fun a b => (a.keyAt primary).same (b.keyAt primary) = false := by
  have hrow {k : Entry} (hk : k ∈ p.keys) {row : Row}
      (hget : Store.residentRow? index k = some row) :
      row.Keyed t primary ∧ (row.keyAt primary).same k = true := by
    have hfound := (h.found ((h.inMemory hp).fits hk) (Store.residentRow?_eq_some_iff.1 hget)).1
    exact ⟨hfound.1, hfound.2.1⟩
  have hkeys : p.keys.Pairwise fun a b => a ∈ p.keys ∧ b ∈ p.keys ∧ a.same b = false :=
    (h.inMemory hp).distinct.imp_of_mem fun ha hb hab => ⟨ha, hb, hab⟩
  refine hkeys.filterMap _ ?_
  rintro a b ⟨ha, hb, hab⟩ row hget row' hget'
  obtain ⟨hkeyed, hsame⟩ := hrow ha hget
  obtain ⟨hkeyed', hsame'⟩ := hrow hb hget'
  have hfa := (h.inMemory hp).fits ha
  have hfb := (h.inMemory hp).fits hb
  rw [Entry.same_congr_left hkeyed.fits hfa hkeyed'.fits hsame,
    Entry.same_congr_right hfa hkeyed'.fits hfb hsame', hab]

/-! ## Changing one page -/

/-- A step that changes one page.  The slots on other pages stay, so only that page and the slots on
it need to be looked at. -/
theorem Agree.update (h : Agree t primary exempt last index page file) (n : Nat)
    (hascending : index'.Ascending (Entry.fits t))
    (hlast : last ≤ last' ∧ ∀ m, m ≠ n → m ≤ last' → m ≤ last)
    (hexempt : ∀ m, 0 < m → m ≠ n → m ≠ exempt' → m ≠ exempt)
    (hpage : ∀ m, m ≠ n → page' m = page m)
    (hfile : ∀ m, m ≠ n → file' m = file m)
    (hslots : ∀ k, k.fits t → ∀ slot : Slot, slot.page ≠ n →
      (index'.get? k = some slot ↔ index.get? k = some slot))
    (hn : 0 < n ∧ n ≤ last')
    (hinMemory : ∀ p, page' n = some p → InMemory t index' n p)
    (hclean : ∀ p, page' n = some p → p.dirty = false → n ≠ exempt' → Matches index' file' n p)
    (hfiled : page' n = none → ∃ rows, file' n = some rows ∧ OnFile t primary index' n rows)
    (hfound : ∀ k, k.fits t → ∀ slot : Slot, slot.page = n → index'.get? k = some slot →
      Found t primary page' file' k slot) :
    Agree t primary exempt' last' index' page' file' := by
  have hget {m : Nat} (hm : m ≠ n) {p : Page} (hp : page m = some p) :
      ∀ k ∈ p.keys, index'.get? k = index.get? k := by
    intro k hk
    obtain ⟨hfits, row, hrow, hposition⟩ := (h.inMemory hp).listed k hk
    rw [hrow, hslots k hfits (.resident row) (by simpa [Slot.page, hposition] using hm)]
    exact hrow
  have hrows {m : Nat} (hm : m ≠ n) {p : Page} (hp : page m = some p) :
      Store.pageRows index' p = Store.pageRows index p :=
    Store.pageRows_congr rfl rfl (hget hm hp)
  constructor
  case ascending => exact hascending
  case within =>
    intro m p hp
    by_cases hm : m = n
    · exact hm ▸ hn
    · rw [hpage m hm] at hp
      exact ⟨(h.within hp).1, Nat.le_trans (h.within hp).2 hlast.1⟩
  case inMemory =>
    intro m p hp
    by_cases hm : m = n
    · exact hm ▸ hinMemory p (hm ▸ hp)
    · rw [hpage m hm] at hp
      have hold := h.inMemory hp
      refine ⟨hold.number, fun k hk => ?_, hold.distinct, by rw [hrows hm hp]; exact hold.size⟩
      rw [hget hm hp k hk]
      exact hold.listed k hk
  case clean =>
    intro m p hp hdirty hm'
    by_cases hm : m = n
    · exact hm ▸ hclean p (hm ▸ hp) hdirty (hm ▸ hm')
    · rw [hpage m hm] at hp
      unfold Matches
      rw [hfile m hm, hrows hm hp]
      exact h.clean hp hdirty (hexempt m (h.within hp).1 hm hm')
  case filed =>
    intro m hp hpos hle
    by_cases hm : m = n
    · exact hm ▸ hfiled (hm ▸ hp)
    · rw [hpage m hm] at hp
      obtain ⟨rows, hrows, hold⟩ := h.filed hp hpos (hlast.2 m hm hle)
      refine ⟨rows, (hfile m hm).trans hrows, fun r hr => ?_, hold.distinct⟩
      obtain ⟨hkeyed, hposition, hget⟩ := hold.keyed r hr
      exact ⟨hkeyed, hposition, (hslots _ hkeyed.fits (.evicted m) hm).2 hget⟩
  case found =>
    intro k slot hk hget
    by_cases hm : slot.page = n
    · exact ⟨hfound k hk slot hm hget, hm ▸ hn⟩
    · rw [hslots k hk slot hm] at hget
      obtain ⟨hold, hpos, hle⟩ := h.found hk hget
      refine ⟨?_, hpos, Nat.le_trans hle hlast.1⟩
      cases slot with
      | resident row =>
        simp only [Found, hpage row.position hm]
        exact hold
      | evicted m =>
        simp only [Found, hpage m hm, hfile m hm]
        exact hold

end Agreement

end PageDb
