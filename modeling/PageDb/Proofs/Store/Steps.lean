import PageDb.Proofs.Store.Agreement

/-!
The steps that keep the views of a store in agreement.

A page is opened, loaded or read back (`Agree.bringIn`), it is evicted or loaded as evicted
(`Agree.sendOut`), it is written (`Agree.write`), and its list of keys is changed in one place
(`Agree.splice`), which covers inserting, deleting, updating and renaming a row.
-/

namespace PageDb

variable {t : ColumnType} {primary exempt exempt' last last' : Nat} {index index' : Index Slot}
  {page page' : Nat → Option Page} {file file' : Nat → Option (List Row)}

/-- A change of the index that puts the rows of page `n` into slots made by `slot`, and touches no
other key.  Before, no key but theirs was on that page, and theirs were on no other page. -/
structure Settles (t : ColumnType) (primary : Nat) (slot : Row → Slot) (n : Nat) (rows : List Row)
    (index index' : Index Slot) : Prop where
  keyed : ∀ r ∈ rows, r.Keyed t primary ∧ r.position = n
  distinct : rows.Pairwise fun a b => (a.keyAt primary).same (b.keyAt primary) = false
  ascending : index'.Ascending (Entry.fits t)
  settled : ∀ r ∈ rows, index'.get? (r.keyAt primary) = some (slot r)
  kept : ∀ k, k.fits t → (∀ r ∈ rows, (r.keyAt primary).same k = false) →
    index'.get? k = index.get? k
  there : ∀ r ∈ rows, ∀ s, index.get? (r.keyAt primary) = some s → s.page = n
  all : ∀ k, k.fits t → ∀ s, index.get? k = some s → s.page = n →
    ∃ r ∈ rows, (r.keyAt primary).same k = true

namespace Settles

variable {slot : Row → Slot} {n : Nat} {rows : List Row}

/-- Every key is that of one of the rows, or of none. -/
theorem cases (h : Settles t primary slot n rows index index') (hi : index.Ascending (Entry.fits t))
    {k : Entry} (hk : k.fits t) :
    (∃ r ∈ rows, (r.keyAt primary).same k = true ∧ index'.get? k = some (slot r) ∧
        index.get? k = index.get? (r.keyAt primary)) ∨
      (∀ r ∈ rows, (r.keyAt primary).same k = false) ∧ index'.get? k = index.get? k := by
  by_cases hr : ∃ r ∈ rows, (r.keyAt primary).same k = true
  · obtain ⟨r, hr, hsame⟩ := hr
    have hfits := (h.keyed r hr).1.fits
    refine .inl ⟨r, hr, hsame, ?_, ?_⟩
    · rw [← h.settled r hr]
      exact (SortedMap.get?_congr (Entry.orderedOn_fits t) h.ascending hfits hk
        (Entry.same_iff.1 hsame)).symm
    · exact (SortedMap.get?_congr (Entry.orderedOn_fits t) hi hfits hk
        (Entry.same_iff.1 hsame)).symm
  · have hnone : ∀ r ∈ rows, (r.keyAt primary).same k = false := fun r hmem => by
      simpa using fun hsame => hr ⟨r, hmem, hsame⟩
    exact .inr ⟨hnone, h.kept k hk hnone⟩

/-- Slots on other pages stay. -/
theorem slots (h : Settles t primary slot n rows index index')
    (hi : index.Ascending (Entry.fits t)) (hslot : ∀ r ∈ rows, (slot r).page = n)
    {k : Entry} (hk : k.fits t) {s : Slot} (hs : s.page ≠ n) :
    index'.get? k = some s ↔ index.get? k = some s := by
  rcases h.cases hi hk with ⟨r, hr, -, hnew, hold⟩ | ⟨-, hsame⟩
  · constructor
    · intro hget
      rw [hnew, Option.some.injEq] at hget
      exact absurd (hget ▸ hslot r hr) hs
    · intro hget
      exact absurd (h.there r hr s (hold ▸ hget)) hs
  · rw [hsame]

/-- A slot on the page is that of one of the rows. -/
theorem of_page_eq (h : Settles t primary slot n rows index index')
    (hi : index.Ascending (Entry.fits t)) {k : Entry} (hk : k.fits t) {s : Slot} (hs : s.page = n)
    (hget : index'.get? k = some s) :
    ∃ r ∈ rows, (r.keyAt primary).same k = true ∧ s = slot r := by
  rcases h.cases hi hk with ⟨r, hr, hsame, hnew, -⟩ | ⟨hnone, hsame⟩
  · exact ⟨r, hr, hsame, by simpa [hnew, eq_comm] using hget⟩
  · obtain ⟨r, hr, hr'⟩ := h.all k hk s (hsame ▸ hget) hs
    simp [hnone r hr] at hr'

end Settles

/-- The page of rows that were settled in memory. -/
structure Holds (primary : Nat) (n : Nat) (rows : List Row) (p : Page) : Prop where
  number : p.number = n
  keys : p.keys = rows.map fun r => r.keyAt primary
  size : p.size = rowBytes rows

theorem Settles.pageRows {n : Nat} {rows : List Row}
    (h : Settles t primary .resident n rows index index') {p : Page} (hp : Holds primary n rows p) :
    Store.pageRows index' p = rows := by
  unfold Store.pageRows
  rw [hp.keys, List.filterMap_map]
  have hsettled := h.settled
  clear h hp
  induction rows with
  | nil => rfl
  | cons r rest ih =>
    have hr : Store.residentRow? index' (r.keyAt primary) = some r :=
      Store.residentRow?_eq_some_iff.2 (hsettled r (by simp))
    simp only [List.filterMap_cons, Function.comp_apply, hr, List.cons.injEq, true_and]
    exact ih fun r hr => hsettled r (by simp [hr])

/-- A page comes into memory with the rows of its file. -/
theorem Agree.bringIn (h : Agree t primary exempt last index page file) {n : Nat} {rows : List Row}
    (hsettles : Settles t primary .resident n rows index index') {p : Page}
    (hp : Holds primary n rows p)
    (hlast : last ≤ last' ∧ ∀ m, m ≠ n → m ≤ last' → m ≤ last) (hn : 0 < n ∧ n ≤ last')
    (hexempt : ∀ m, 0 < m → m ≠ n → m ≠ exempt' → m ≠ exempt)
    (hpage : ∀ m, page' m = if m = n then some p else page m)
    (hfile : n ≠ exempt' → file n = some rows) :
    Agree t primary exempt' last' index' page' file := by
  have hpn : page' n = some p := by simp [hpage]
  have hrows := hsettles.pageRows hp
  have hposition (r : Row) (hr : r ∈ rows) : (Slot.resident r).page = n := (hsettles.keyed r hr).2
  refine h.update n hsettles.ascending hlast hexempt (fun m hm => by simp [hpage, hm])
    (fun _ _ => rfl) (fun k hk s hs => hsettles.slots h.ascending hposition hk hs) hn ?_ ?_ ?_ ?_
  · rintro q hq
    obtain rfl : p = q := by simpa [hpn] using hq
    refine ⟨hp.number, ?_, ?_, by rw [hrows, hp.size]⟩
    · intro k hk
      rw [hp.keys] at hk
      obtain ⟨r, hr, rfl⟩ := List.mem_map.1 hk
      exact ⟨(hsettles.keyed r hr).1.fits, r, hsettles.settled r hr, (hsettles.keyed r hr).2⟩
    · rw [hp.keys]
      exact List.pairwise_map.2 hsettles.distinct
  · rintro q hq - hex
    obtain rfl : p = q := by simpa [hpn] using hq
    rw [Matches, hrows, hfile hex]
  · simp [hpn]
  · intro k hk s hs hget
    obtain ⟨r, hr, hsame, rfl⟩ := hsettles.of_page_eq h.ascending hk hs hget
    refine ⟨(hsettles.keyed r hr).1, hsame, p, by rw [(hsettles.keyed r hr).2, hpn], ?_⟩
    exact Page.lists_iff.2 ⟨r.keyAt primary, by simp only [hp.keys]; exact List.mem_map_of_mem hr,
      hsame⟩

/-- A page is out of memory, and its rows are in its file. -/
theorem Agree.sendOut (h : Agree t primary exempt last index page file) {n : Nat} {rows : List Row}
    (hsettles : Settles t primary (fun _ => .evicted n) n rows index index')
    (hlast : last ≤ last' ∧ ∀ m, m ≠ n → m ≤ last' → m ≤ last) (hn : 0 < n ∧ n ≤ last')
    (hpage : ∀ m, page' m = if m = n then none else page m)
    (hfile : file n = some rows) :
    Agree t primary exempt last' index' page' file := by
  have hpn : page' n = none := by simp [hpage]
  refine h.update n hsettles.ascending hlast (fun _ _ _ he => he) (fun m hm => by simp [hpage, hm])
    (fun _ _ => rfl) (fun k hk s hs => hsettles.slots h.ascending (fun _ _ => rfl) hk hs) hn
    (by simp [hpn]) (by simp [hpn]) ?_ ?_
  · exact fun _ => ⟨rows, hfile, fun r hr =>
      ⟨(hsettles.keyed r hr).1, (hsettles.keyed r hr).2, hsettles.settled r hr⟩, hsettles.distinct⟩
  · intro k hk s hs hget
    obtain ⟨r, hr, hsame, rfl⟩ := hsettles.of_page_eq h.ascending hk hs hget
    exact ⟨hpn, rows, hfile, r, hr, hsame⟩

/-- A page in memory is written to its file. -/
theorem Agree.write (h : Agree t primary exempt last index page file) {n : Nat} {p : Page}
    (hp : page n = some p)
    (hfile : ∀ m, file' m = if m = n then some (Store.pageRows index p) else file m) :
    Agree t primary exempt last index page file' := by
  refine h.update n h.ascending ⟨Nat.le_refl _, fun _ _ hle => hle⟩ (fun _ _ _ he => he)
    (fun _ _ => rfl) (fun m hm => by simp [hfile, hm]) (fun _ _ _ _ => .rfl) (h.within hp)
    (fun q hq => h.inMemory hq) ?_ (by simp [hp]) ?_
  · rintro q hq - -
    obtain rfl : p = q := by simpa [hp] using hq
    simp [Matches, hfile]
  · intro k hk s hs hget
    have hold := (h.found hk hget).1
    cases s with
    | resident row => exact hold
    | evicted m =>
      obtain rfl : m = n := hs
      simp [Found, hp] at hold

/-- Visits, pins and marks of pages do not matter, as long as an unmarked page matches its file. -/
theorem Agree.retouch (h : Agree t primary exempt last index page file)
    (hnone : ∀ n, page n = none → page' n = none)
    (hsome : ∀ n p, page n = some p → ∃ p', page' n = some p' ∧ p'.number = p.number ∧
      p'.keys = p.keys ∧ p'.size = p.size ∧
      (p'.dirty = false → n ≠ exempt' → Matches index file n p)) :
    Agree t primary exempt' last index page' file := by
  have back {n : Nat} {p' : Page} (hp' : page' n = some p') : ∃ p, page n = some p ∧
      p'.number = p.number ∧ p'.keys = p.keys ∧ p'.size = p.size ∧
      (p'.dirty = false → n ≠ exempt' → Matches index file n p) := by
    cases hp : page n with
    | none => simp [hnone n hp] at hp'
    | some p =>
      obtain ⟨q, hq, hrest⟩ := hsome n p hp
      obtain rfl : p' = q := by simpa [hp'] using hq
      exact ⟨p, rfl, hrest⟩
  have backNone {n : Nat} (hp' : page' n = none) : page n = none := by
    cases hp : page n with
    | none => rfl
    | some p =>
      obtain ⟨q, hq, -⟩ := hsome n p hp
      simp [hp'] at hq
  constructor
  case ascending => exact h.ascending
  case within =>
    intro n p' hp'
    obtain ⟨p, hp, -⟩ := back hp'
    exact h.within hp
  case inMemory =>
    intro n p' hp'
    obtain ⟨p, hp, hnumber, hkeys, hsize, -⟩ := back hp'
    have hold := h.inMemory hp
    refine ⟨hnumber ▸ hold.number, hkeys ▸ hold.listed, hkeys ▸ hold.distinct, ?_⟩
    rw [hsize, hold.size, Store.pageRows_congr rfl hkeys fun _ _ => rfl]
  case clean =>
    intro n p' hp' hdirty hn
    obtain ⟨p, hp, -, hkeys, -, hclean⟩ := back hp'
    unfold Matches
    rw [Store.pageRows_congr (p := p) rfl hkeys fun _ _ => rfl]
    exact hclean hdirty hn
  case filed =>
    intro n hp' hpos hle
    exact h.filed (backNone hp') hpos hle
  case found =>
    intro k slot hk hget
    obtain ⟨hold, hrange⟩ := h.found hk hget
    refine ⟨?_, hrange⟩
    cases slot with
    | resident row =>
      obtain ⟨hkeyed, hsame, p, hp, hlists⟩ := hold
      obtain ⟨p', hp', -, hkeys, -⟩ := hsome _ _ hp
      exact ⟨hkeyed, hsame, p', hp', by simpa [Page.lists, hkeys] using hlists⟩
    | evicted n => exact ⟨hnone n hold.1, hold.2⟩

/-! ## Changing the rows of a page -/

/-- The rows of a list of keys, as far as they are in memory. -/
def residentRows (index : Index Slot) (keys : List Entry) : List Row :=
  keys.filterMap (Store.residentRow? index)

theorem residentRows_congr {keys : List Entry} (h : ∀ k ∈ keys, index'.get? k = index.get? k) :
    residentRows index' keys = residentRows index keys :=
  Store.pageRows_congr (p := { number := 0, keys := keys }) (q := { number := 0, keys := keys })
    rfl rfl h

theorem residentRows_append (index : Index Slot) (keys more : List Entry) :
    residentRows index (keys ++ more) = residentRows index keys ++ residentRows index more :=
  List.filterMap_append

theorem residentRows_singleton {k : Entry} {row : Row}
    (h : index.get? k = some (.resident row)) : residentRows index [k] = [row] := by
  simp [residentRows, Store.residentRow?_eq_some_iff.2 h]

/-- A change of the index on one page: the keys `out` give way to the keys `into`. -/
structure Splices (t : ColumnType) (primary n : Nat) (out into : List Entry)
    (index index' : Index Slot) : Prop where
  ascending : index'.Ascending (Entry.fits t)
  distinct : into.Pairwise fun a b => a.same b = false
  /-- The new keys have rows on the page. -/
  fresh : ∀ j ∈ into, j.fits t ∧ ∃ row, index'.get? j = some (.resident row) ∧
    row.position = n ∧ row.Keyed t primary ∧ (row.keyAt primary).same j = true
  /-- A new key was on no page, or it is one of the old keys. -/
  free : ∀ j ∈ into, index.get? j = none ∨ ∃ i ∈ out, i.same j = true
  gone : ∀ k, k.fits t → (∃ j ∈ out, j.same k = true) → (∀ j ∈ into, j.same k = false) →
    index'.get? k = none
  kept : ∀ k, k.fits t → (∀ j ∈ out, j.same k = false) → (∀ j ∈ into, j.same k = false) →
    index'.get? k = index.get? k

/-- The keys of a page that give way are none of those that stay. -/
theorem InMemory.apart {n : Nat} {p : Page} {front out back : List Entry}
    (h : InMemory t index n p) (hkeys : p.keys = front ++ out ++ back) {o j : Entry} (ho : o ∈ out)
    (hj : j ∈ front ++ back) : o.same j = false := by
  have hin {k : Entry} (hk : k ∈ front ++ out ++ back) : k.fits t := h.fits (hkeys ▸ hk)
  have hdistinct := h.distinct
  rw [hkeys] at hdistinct
  obtain ⟨hleft, -, hcross⟩ := List.pairwise_append.1 hdistinct
  rcases List.mem_append.1 hj with hj | hj
  · rw [Entry.same_comm (hin (by simp [ho])) (hin (by simp [hj]))]
    exact (List.pairwise_append.1 hleft).2.2 j hj o ho
  · exact hcross o (by simp [ho]) j hj

/-- A key that gives way had its row on the page. -/
theorem Agree.resident_of_out (h : Agree t primary exempt last index page file) {n : Nat} {p : Page}
    (hp : page n = some p) {front out back : List Entry} (hkeys : p.keys = front ++ out ++ back)
    {k o : Entry} (hk : k.fits t) (ho : o ∈ out) (hsame : o.same k = true) :
    ∃ row, index.get? k = some (.resident row) ∧ row.position = n :=
  (h.lists_iff hp hk).1 (Page.lists_iff.2 ⟨o, by simp [hkeys, ho], hsame⟩)

namespace Splices

variable {n : Nat} {p p' : Page} {front out into back : List Entry}

/-- Every key is that of a new row, or its row is gone, or its slot stays. -/
theorem cases (h : Splices t primary n out into index index') {k : Entry} (hk : k.fits t) :
    (∃ i ∈ into, i.same k = true ∧ ∃ row, index'.get? k = some (.resident row) ∧ row.position = n ∧
        row.Keyed t primary ∧ (row.keyAt primary).same k = true) ∨
      (∃ o ∈ out, o.same k = true) ∧ index'.get? k = none ∨
      (∀ o ∈ out, o.same k = false) ∧ index'.get? k = index.get? k := by
  by_cases hi : ∃ i ∈ into, i.same k = true
  · obtain ⟨i, hi, hsame⟩ := hi
    obtain ⟨hfits, row, hrow, hposition, hkeyed, hkey⟩ := h.fresh i hi
    refine .inl ⟨i, hi, hsame, row, ?_, hposition, hkeyed, ?_⟩
    · rw [← hrow]
      exact (SortedMap.get?_congr (Entry.orderedOn_fits t) h.ascending hfits hk
        (Entry.same_iff.1 hsame)).symm
    · rw [← Entry.same_congr_right hkeyed.fits hfits hk hsame, hkey]
  have hnone : ∀ i ∈ into, i.same k = false := fun i hmem => by
    simpa using fun hsame => hi ⟨i, hmem, hsame⟩
  by_cases ho : ∃ o ∈ out, o.same k = true
  · exact .inr (.inl ⟨ho, h.gone k hk ho hnone⟩)
  · have hnotOut : ∀ o ∈ out, o.same k = false := fun o hmem => by
      simpa using fun hsame => ho ⟨o, hmem, hsame⟩
    exact .inr (.inr ⟨hnotOut, h.kept k hk hnotOut hnone⟩)

variable (hsplices : Splices t primary n out into index index')
  (h : Agree t primary exempt last index page file) (hp : page n = some p)
  (hkeys : p.keys = front ++ out ++ back)

include hsplices h hp hkeys

/-- A new key is none of the keys that stay. -/
theorem apart {i j : Entry} (hi : i ∈ into) (hj : j ∈ front ++ back) : i.same j = false := by
  have hjp : j ∈ p.keys := by
    rcases List.mem_append.1 hj with hj | hj <;> simp [hkeys, hj]
  obtain ⟨hifits, -⟩ := hsplices.fresh i hi
  obtain ⟨hjfits, row, hrow, -⟩ := (h.inMemory hp).listed j hjp
  rw [← Bool.not_eq_true]
  intro hsame
  rcases hsplices.free i hi with hnone | ⟨o, ho, hoi⟩
  · rw [SortedMap.get?_congr (Entry.orderedOn_fits t) h.ascending hifits hjfits
      (Entry.same_iff.1 hsame), hrow] at hnone
    cases hnone
  · have hofits := (h.inMemory hp).fits (show o ∈ p.keys by simp [hkeys, ho])
    have hoj := (h.inMemory hp).apart hkeys ho hj
    rw [Entry.same_congr_left hofits hifits hjfits hoi, hsame] at hoj
    cases hoj

/-- The slots of the keys that stay are as before. -/
theorem stays {j : Entry} (hj : j ∈ front ++ back) : index'.get? j = index.get? j := by
  have hjp : j ∈ p.keys := by
    rcases List.mem_append.1 hj with hj | hj <;> simp [hkeys, hj]
  exact hsplices.kept j ((h.inMemory hp).fits hjp)
    (fun o ho => (h.inMemory hp).apart hkeys ho hj)
    fun i hi => hsplices.apart h hp hkeys hi hj

/-- Slots on other pages are as before. -/
theorem elsewhere {k : Entry} (hk : k.fits t) {s : Slot} (hs : s.page ≠ n) :
    index'.get? k = some s ↔ index.get? k = some s := by
  have hnot {row : Row} (hposition : row.position = n) : Slot.resident row ≠ s := by
    rintro rfl
    exact hs hposition
  rcases hsplices.cases hk with ⟨i, hi, hsame, row, hrow, hposition, -⟩ | ⟨⟨o, ho, hsame⟩, hnone⟩ |
    ⟨-, hkept⟩
  · have hold : index.get? k ≠ some s := by
      intro hget
      obtain ⟨hifits, -⟩ := hsplices.fresh i hi
      rw [← SortedMap.get?_congr (Entry.orderedOn_fits t) h.ascending hifits hk
        (Entry.same_iff.1 hsame)] at hget
      rcases hsplices.free i hi with hnone | ⟨o, ho, hoi⟩
      · rw [hnone] at hget
        cases hget
      · obtain ⟨row, hrow, hposition⟩ := h.resident_of_out hp hkeys hifits ho hoi
        rw [hrow] at hget
        exact hnot hposition (Option.some.inj hget)
    have hnew : index'.get? k ≠ some s := by
      intro hget
      rw [hrow] at hget
      exact hnot hposition (Option.some.inj hget)
    exact iff_of_false hnew hold
  · obtain ⟨row, hrow, hposition⟩ := h.resident_of_out hp hkeys hk ho hsame
    rw [hnone, hrow]
    exact iff_of_false (by simp) fun hget => hnot hposition (Option.some.inj hget)
  · rw [hkept]

/-- The page lists the keys that stay and the new ones, and counts their bytes. -/
theorem inMemory (hkeys' : p'.keys = front ++ into ++ back) (hnumber : p'.number = p.number)
    (hsize : p'.size + rowBytes (residentRows index out) =
      p.size + rowBytes (residentRows index' into)) :
    InMemory t index' n p' := by
  have hmem := h.inMemory hp
  have hin {j : Entry} (hj : j ∈ front ++ back) : j ∈ p.keys := by
    rcases List.mem_append.1 hj with hj | hj <;> simp [hkeys, hj]
  refine ⟨hnumber ▸ hmem.number, ?_, ?_, ?_⟩
  · intro k hk
    rw [hkeys', List.append_assoc, List.mem_append, List.mem_append] at hk
    by_cases hi : k ∈ into
    · obtain ⟨hfits, row, hrow, hposition, -⟩ := hsplices.fresh k hi
      exact ⟨hfits, row, hrow, hposition⟩
    · have hk : k ∈ front ++ back := by simpa [hi] using hk
      rw [hsplices.stays h hp hkeys hk]
      exact hmem.listed k (hin hk)
  · have hdistinct := hmem.distinct
    rw [hkeys] at hdistinct
    obtain ⟨hleft, hback, hcross⟩ := List.pairwise_append.1 hdistinct
    rw [hkeys']
    refine List.pairwise_append.2 ⟨List.pairwise_append.2 ⟨(List.pairwise_append.1 hleft).1,
      hsplices.distinct, fun a ha b hb => ?_⟩, hback, fun a ha b hb => ?_⟩
    · rw [Entry.same_comm (hmem.fits (hin (by simp [ha]))) (hsplices.fresh b hb).1]
      exact hsplices.apart h hp hkeys hb (by simp [ha])
    · rcases List.mem_append.1 ha with ha | ha
      · exact hcross a (by simp [ha]) b hb
      · exact hsplices.apart h hp hkeys ha (by simp [hb])
  · have hfront : residentRows index' front = residentRows index front :=
      residentRows_congr fun k hk => hsplices.stays h hp hkeys (by simp [hk])
    have hback : residentRows index' back = residentRows index back :=
      residentRows_congr fun k hk => hsplices.stays h hp hkeys (by simp [hk])
    have hold : p.size = rowBytes (residentRows index (front ++ out ++ back)) := hkeys ▸ hmem.size
    show p'.size = rowBytes (residentRows index' p'.keys)
    rw [hkeys']
    simp only [residentRows_append, rowBytes_append, hfront, hback] at hold ⊢
    omega

/-- The slots on the page are found there. -/
theorem found (hpn : page' n = some p') (hkeys' : p'.keys = front ++ into ++ back) {k : Entry}
    (hk : k.fits t) {s : Slot} (hs : s.page = n) (hget : index'.get? k = some s) :
    Found t primary page' file k s := by
  rcases hsplices.cases hk with ⟨i, hi, hsame, row, hrow, hposition, hkeyed, hkey⟩ | ⟨-, hnone⟩ |
    ⟨hnotOut, hkept⟩
  · obtain rfl : .resident row = s := Option.some.inj (hrow.symm.trans hget)
    refine ⟨hkeyed, hkey, p', hposition ▸ hpn, Page.lists_iff.2 ⟨i, ?_, hsame⟩⟩
    simp [hkeys', hi]
  · rw [hnone] at hget
    cases hget
  · rw [hkept] at hget
    have hold := (h.found hk hget).1
    cases s with
    | evicted m =>
      obtain rfl : m = n := hs
      have hnone := hold.1
      rw [hp] at hnone
      cases hnone
    | resident row =>
      obtain ⟨hkeyed, hkey, q, hq, hlists⟩ := hold
      obtain rfl : row.position = n := hs
      obtain rfl : p = q := Option.some.inj (hp.symm.trans hq)
      obtain ⟨j, hj, hsame⟩ := Page.lists_iff.1 hlists
      have hj' : j ∉ out := fun hout => by simp [hnotOut j hout] at hsame
      refine ⟨hkeyed, hkey, p', hpn, Page.lists_iff.2 ⟨j, ?_, hsame⟩⟩
      simp only [hkeys, List.mem_append, hj', or_false] at hj
      simp only [hkeys', List.mem_append]
      exact hj.elim (fun hj => .inl (.inl hj)) .inr

end Splices

/-- A page gets a row in place of another one, or besides the others, or loses one. -/
theorem Agree.splice (h : Agree t primary exempt last index page file) {n : Nat} {p p' : Page}
    (hp : page n = some p) (hpage : ∀ m, page' m = if m = n then some p' else page m)
    (front out into back : List Entry) (hkeys : p.keys = front ++ out ++ back)
    (hkeys' : p'.keys = front ++ into ++ back)
    (hnumber : p'.number = p.number) (hdirty : p'.dirty = true)
    (hsize : p'.size + rowBytes (residentRows index out) =
      p.size + rowBytes (residentRows index' into))
    (hsplices : Splices t primary n out into index index')
    (hexempt : ∀ m, 0 < m → m ≠ n → m ≠ exempt' → m ≠ exempt) :
    Agree t primary exempt' last index' page' file := by
  have hpn : page' n = some p' := by simp [hpage]
  refine h.update n hsplices.ascending ⟨Nat.le_refl _, fun _ _ hle => hle⟩ hexempt
    (fun m hm => by simp [hpage, hm]) (fun _ _ => rfl)
    (fun k hk s hs => hsplices.elsewhere h hp hkeys hk hs) (h.within hp) ?_ ?_ (by simp [hpn])
    fun k hk s hs hget => hsplices.found h hp hkeys hpn hkeys' hk hs hget
  case _ =>
    intro q hq
    obtain rfl : p' = q := Option.some.inj (hpn.symm.trans hq)
    exact hsplices.inMemory h hp hkeys hkeys' hnumber hsize
  case _ =>
    intro q hq hclean
    obtain rfl : p' = q := Option.some.inj (hpn.symm.trans hq)
    rw [hdirty] at hclean
    cases hclean

end PageDb
