import PageDb.Proofs.Store.Residency

/-!
What inserting, deleting, updating and getting a row do to the rows of a sound shelf.
-/

namespace PageDb

namespace Shelf

variable {t : ColumnType} {primary exempt : Nat} {sh : Shelf}

/-! ## Changing a page in memory -/

/-- The shelf after the rows of a page in memory have changed. -/
def withRows (sh : Shelf) (index : Index Slot) (n : Nat) (p : Page) : Shelf :=
  { sh with store := { sh.store with index := some index, pages := sh.store.pages.insert n p } }

/-- What a change of the rows of a page keeps, and the visit that follows it. -/
theorem Sound.change (h : Sound t primary exempt sh) {exempt' n : Nat} {p q : Page}
    {index' : Index Slot} (hp : sh.store.pages.get? n = some p) (hseen : q.seen = p.seen)
    (hdirty : q.dirty = true)
    (hagree : Agree t primary exempt' sh.store.lastPage index' (sh.store.pages.insert n q).get?
      sh.stored?) (pin : Bool) :
    ∃ sh', sh' = { sh.withRows index' n q with store := (sh.withRows index' n q).store.visit n pin } ∧
      Sound t primary exempt' sh' ∧ Frame sh sh' ∧
      sh'.rows primary = contentsOf primary index' sh.stored? ∧
      sh'.store.lastPage = sh.store.lastPage ∧ sh'.Safe n ∧
      (pin = true → sh'.store.Pinned n) := by
  have hget (m : Nat) : (sh.withRows index' n q).store.pages.get? m =
      if m = n then some q else sh.store.pages.get? m := SortedMap.get?_insert_eq h.pages n m q
  have hsound : Sound t primary exempt' (sh.withRows index' n q) :=
    ⟨rfl, h.pages.insert SortedMap.orderedOn_all trivial q, hagree,
      h.tracks.insert h.pages hp hseen, h.ordered⟩
  have hq : (sh.withRows index' n q).store.pages.get? n = some q := by rw [hget, if_pos rfl]
  have hframe : Frame sh (sh.withRows index' n q) := by
    refine ⟨rfl, rfl, rfl, rfl, Nat.le_refl _, .of_directory_eq rfl, ?_⟩
    intro m _ _ hm
    by_cases hmn : m = n
    · subst hmn
      exact .inl ⟨q, hq, hdirty⟩
    · refine hm.imp_left ?_
      rintro ⟨r, hr, hr'⟩
      refine ⟨r, ?_, hr'⟩
      rw [hget, if_neg hmn, hr]
  obtain ⟨hvisited, hmoves⟩ := hsound.visit hq pin
  have hn := hsound.agree.within hq
  refine ⟨_, rfl, hvisited, hframe.trans hmoves.toFrame, hmoves.rows, hmoves.lastPage,
    hmoves.safe n hn.1 hn.2 (.inl ⟨q, hq, hdirty⟩), ?_⟩
  rintro rfl
  exact Store.pinned_visit hsound.pages hq

/-- Running the change of a page in memory. -/
theorem run_changePage {n : Nat} {p : Page} (hp : sh.store.pages.get? n = some p) (f : Page → Page) :
    (changePage n f).run sh = (.ok (), { sh with store :=
      { sh.store with pages := sh.store.pages.insert n (f p).touched } }) := by
  unfold changePage
  rw [Action.run_bind_ok (run_getStore sh)]
  simp only [hp]
  rfl

/-! ## Inserting -/

/-- Every page may be exempt. -/
theorem Sound.weaken (h : Sound t primary 0 sh) (n : Nat) : Sound t primary n sh where
  live := h.live
  pages := h.pages
  agree := { h.agree with
    clean := fun hp hdirty _ =>
      h.agree.clean hp hdirty (Nat.pos_iff_ne_zero.1 (h.agree.within hp).1) }
  tracks := h.tracks
  ordered := h.ordered

/-- There always is a page for a new row.  It is in memory, and at most one page had to be opened
for it. -/
theorem Sound.pageFor (h : Sound t primary 0 sh) (size : Nat) :
    ∃ n sh', (Shelf.pageFor size).run sh = (.ok n, sh') ∧ Sound t primary n sh' ∧ Frame sh sh' ∧
      sh'.rows primary = sh.rows primary ∧ (sh'.store.pages.get? n).isSome ∧
      ∀ m, sh.store.lastPage < m → m ≤ sh'.store.lastPage → m = n := by
  have hadd : ∃ n sh', Shelf.addPage.run sh = (.ok n, sh') ∧ Sound t primary n sh' ∧ Frame sh sh' ∧
      sh'.rows primary = sh.rows primary ∧ (sh'.store.pages.get? n).isSome ∧
      ∀ m, sh.store.lastPage < m → m ≤ sh'.store.lastPage → m = n := by
    obtain ⟨n, sh', hrun, hsound, hframe, hrows, hn, hlast, hpage⟩ := h.addPage
    exact ⟨n, sh', hrun, hsound, hframe, hrows, hpage, fun m _ _ => by omega⟩
  unfold Shelf.pageFor
  rw [Action.run_bind_ok (run_getStore sh)]
  cases hp : sh.store.pages.get? sh.store.lastPage with
  | none => exact hadd
  | some p =>
    dsimp only
    split
    · exact ⟨_, sh, rfl, h.weaken _, .refl sh, rfl, by rw [hp]; rfl, fun m _ _ => by omega⟩
    · exact hadd

theorem insertRow_noKey {entries : List Entry} (hkey : entries[primary]? = none) (pin : Bool)
    (sh : Shelf) :
    (insertRow entries primary pin).run sh =
      (.error (.schemaMismatch (.noKeyColumn entries.length primary)), sh) := by
  unfold insertRow
  simp only [Row.key, hkey]
  rfl

theorem Sound.insertRow_duplicate (h : Sound t primary exempt sh) {entries : List Entry}
    {key : Entry} (hkey : entries[primary]? = some key) (hin : (sh.rows primary).contains key = true)
    (pin : Bool) : (insertRow entries primary pin).run sh = (.error (.duplicateKey key), sh) := by
  unfold insertRow
  simp only [Row.key, hkey]
  rw [Action.run_bind_ok (Action.run_lift _ _), Action.run_bind_ok (run_getIndex h.live)]
  simp only [contains_rows primary, hin, if_true]
  rfl

/-- Adding a row with a new key to the page that was found for it. -/
theorem run_insertRow {sh₁ : Shelf} {index index₁ : Index Slot} {entries : List Entry} {key : Entry}
    {n : Nat} {p : Page} (hlive : sh.store.index = some index) (hkey : entries[primary]? = some key)
    (hin : index.contains key = false)
    (hrun : (Shelf.pageFor (Row.byteSize { entries := entries })).run sh = (.ok n, sh₁))
    (hlive₁ : sh₁.store.index = some index₁) (hnone : index₁.get? key = none)
    (hp : sh₁.store.pages.get? n = some p) (pin : Bool) :
    (insertRow entries primary pin).run sh =
      (modifyStore fun s => s.visit n pin).run
        (sh₁.withRows (index₁.insert key (.resident ⟨entries, n⟩)) n
          (p.add key (Row.byteSize { entries := entries })).touched) := by
  have hput (slot : Slot) : index₁.put key slot = .ok (index₁.insert key slot) := by
    simp [Index.put, SortedMap.getKey?_eq_none_iff.2 hnone]
  unfold insertRow
  simp only [Row.key, hkey]
  rw [Action.run_bind_ok (Action.run_lift _ _), Action.run_bind_ok (run_getIndex hlive)]
  simp only [hin, Bool.false_eq_true, if_false]
  rw [Action.run_bind_ok hrun, Action.run_bind_ok (run_getIndex hlive₁), hput,
    Action.run_bind_ok (Action.run_lift _ _), Action.run_bind_ok (run_setIndex _ _),
    Action.run_bind_ok (@run_changePage (sh₁.withIndex _) _ _ hp _)]
  rfl

/-- A row with a new key goes to the page that was found for it, which stays in memory. -/
theorem Sound.insertRow_on (h : Sound t primary 0 sh) {entries : List Entry} {key : Entry}
    (hkey : entries[primary]? = some key) (hfits : key.fits t)
    (hin : (sh.rows primary).contains key = false) {sh₁ : Shelf} {n : Nat} {p : Page}
    (hrun : (Shelf.pageFor (Row.byteSize { entries := entries })).run sh = (.ok n, sh₁))
    (h₁ : Sound t primary n sh₁) (hrows : sh₁.rows primary = sh.rows primary)
    (hp : sh₁.store.pages.get? n = some p) (pin : Bool) :
    ∃ sh', (Shelf.insertRow entries primary pin).run sh = (.ok (), sh') ∧
      Sound t primary 0 sh' ∧ Frame sh₁ sh' ∧
      sh'.rows primary = (sh.rows primary).insert key ⟨entries, n⟩ ∧
      sh'.store.lastPage = sh₁.store.lastPage ∧ (sh'.store.pages.get? n).isSome ∧ sh'.Safe n ∧
      (pin = true → sh'.store.Pinned n) := by
  let row : Row := { entries := entries }
  let q : Page := (p.add key row.byteSize).touched
  have hkeyed : (row.placedOn n).Keyed t primary := ⟨key, hkey, hfits⟩
  have hkeyAt : (row.placedOn n).keyAt primary = key := by simp [Row.keyAt, row, hkey]
  have hnone : sh₁.index.get? key = none := by
    rw [← SortedMap.contains_eq_false_iff, contains_rows primary, hrows, hin]
  have hagree := h₁.agree.add hp hkeyed rfl (hkeyAt ▸ hnone) (fun m _ hm (_ : m ≠ 0) => hm)
    (sh₁.store.pages.insert n q).get? fun m => by
      rw [SortedMap.get?_insert_eq h₁.pages, hkeyAt]
      rfl
  rw [hkeyAt] at hagree
  obtain ⟨sh₂, hsh₂, hsound, hframe₂, hrows₂, hlast, hsafe, hpinned⟩ :=
    h₁.change hp (q := q) rfl rfl hagree pin
  have hpage : (sh₂.store.pages.get? n).isSome := by
    rw [hsh₂]
    dsimp only
    rw [Store.isSome_get?_visit (h₁.pages.insert SortedMap.orderedOn_all trivial q)]
    show ((sh₁.store.pages.insert n q).get? n).isSome = true
    rw [SortedMap.get?_insert_eq h₁.pages, if_pos rfl]
    rfl
  refine ⟨sh₂, ?_, hsound, hframe₂, ?_, hlast, hpage, hsafe, hpinned⟩
  · have hcontains : sh.index.contains key = false := by rw [contains_rows primary, hin]
    rw [run_insertRow h.live hkey hcontains hrun h₁.live hnone hp, run_modifyStore, hsh₂]
    rfl
  · rw [hrows₂, h₁.agree.contentsOf_insert hfits _ hagree, ← hrows]
    rfl

/-- A row with a new key goes to a page in memory. -/
theorem Sound.insertRow (h : Sound t primary 0 sh) {entries : List Entry} {key : Entry}
    (hkey : entries[primary]? = some key) (hfits : key.fits t)
    (hin : (sh.rows primary).contains key = false) (pin : Bool) :
    ∃ n sh', (Shelf.insertRow entries primary pin).run sh = (.ok (), sh') ∧
      Sound t primary 0 sh' ∧ Frame sh sh' ∧
      sh'.rows primary = (sh.rows primary).insert key ⟨entries, n⟩ ∧
      (∀ m, sh.store.lastPage < m → m ≤ sh'.store.lastPage → sh'.Safe m) ∧
      (pin = true → sh'.store.Pinned n) := by
  obtain ⟨n, sh₁, hrun, h₁, hframe, hrows, hpage, hnew⟩ :=
    h.pageFor (Row.byteSize { entries := entries })
  obtain ⟨p, hp⟩ := Option.isSome_iff_exists.1 hpage
  obtain ⟨sh₂, hrun₂, hsound, hframe₂, hrows₂, hlast, -, hsafe, hpinned⟩ :=
    h.insertRow_on hkey hfits hin hrun h₁ hrows hp pin
  refine ⟨n, sh₂, hrun₂, hsound, hframe.trans hframe₂, hrows₂, fun m hm hle => ?_, hpinned⟩
  rw [hlast] at hle
  rw [hnew m hm hle]
  exact hsafe

/-! ## Finding a row -/

/-- The key that the index has for a key of one of the rows. -/
theorem exists_getKey? {v : Entry} {row : Row} (hrow : (sh.rows primary).get? v = some row) :
    ∃ k, sh.index.getKey? v = some k := by
  rw [← Option.isSome_iff_exists, ← SortedMap.getKey?_congr (keys_rows primary sh) v]
  obtain ⟨b, hb, -⟩ := Option.map_eq_some_iff.1 hrow
  rw [SortedMap.getKey?, hb]
  rfl

theorem getKey?_eq_none {v : Entry} (hrow : (sh.rows primary).get? v = none) :
    sh.index.getKey? v = none := by
  rw [← SortedMap.getKey?_congr (keys_rows primary sh) v]
  exact SortedMap.getKey?_eq_none_iff.2 hrow

/-- A row that is there is found, and its page is in memory afterwards. -/
theorem Sound.find (h : Sound t primary 0 sh) {v : Entry} {row : Row}
    (hrow : (sh.rows primary).get? v = some row) :
    ∃ p sh', (Shelf.resolve v primary).run sh = (.ok row.position, sh') ∧ Sound t primary 0 sh' ∧
      Moves primary sh sh' ∧ sh'.index.get? v = some (.resident row) ∧
      sh'.store.pages.get? row.position = some p := by
  obtain ⟨k, hk⟩ := exists_getKey? hrow
  obtain ⟨row', sh', hrun, h', hmoves, hget, hrow', hpage⟩ := h.resolve hk
  obtain rfl : row = row' := by simpa [hrow] using hrow'
  obtain ⟨p, hp⟩ := Option.isSome_iff_exists.1 hpage
  exact ⟨p, sh', hrun, h', hmoves, hget, hp⟩

theorem Sound.getRow_notFound (h : Sound t primary exempt sh) {v : Entry}
    (hrow : (sh.rows primary).get? v = none) :
    (getRow v primary).run sh = (.error (.keyNotFound v), sh) := by
  unfold getRow
  rw [Action.run_bind_error (h.resolve_none (getKey?_eq_none hrow))]

/-- Getting a row that is there answers it, for keys of any type. -/
theorem Sound.getRow (h : Sound t primary 0 sh) {v : Entry} {row : Row}
    (hrow : (sh.rows primary).get? v = some row) :
    ∃ sh', (Shelf.getRow v primary).run sh = (.ok row, sh') ∧ Sound t primary 0 sh' ∧
      Moves primary sh sh' := by
  obtain ⟨p, sh₁, hrun, h₁, hmoves, hget, hp⟩ := h.find hrow
  obtain ⟨hsound, hmoves'⟩ := h₁.visit hp false
  have hfetch : sh₁.index.fetch v = .ok (.resident row) := by simp [Index.fetch, hget]
  refine ⟨_, ?_, hsound, hmoves.trans hmoves'⟩
  unfold Shelf.getRow
  rw [Action.run_bind_ok hrun, Action.run_bind_ok (run_getIndex h₁.live), hfetch,
    Action.run_bind_ok (Action.run_lift _ _)]
  rfl

/-! ## Deleting -/

theorem Sound.deleteRow_notFound (h : Sound t primary exempt sh) {v : Entry}
    (hrow : (sh.rows primary).get? v = none) (pin : Bool) :
    (deleteRow v primary pin).run sh = (.error (.keyNotFound v), sh) := by
  unfold deleteRow
  rw [Action.run_bind_error (h.resolve_none (getKey?_eq_none hrow))]

/-- Deleting a row from its page. -/
theorem run_deleteRow {sh₁ : Shelf} {index : Index Slot} {key : Entry} {row : Row} {p : Page}
    (hrun : (Shelf.resolve key primary).run sh = (.ok row.position, sh₁))
    (hlive : sh₁.store.index = some index) (hget : index.get? key = some (.resident row))
    (hp : sh₁.store.pages.get? row.position = some p) (pin : Bool) :
    (deleteRow key primary pin).run sh =
      (modifyStore fun s => s.visit row.position pin).run
        (sh₁.withRows (index.erase key) row.position (p.remove key row.byteSize).touched) := by
  have htake : index.take key = .ok (.resident row, index.erase key) := by simp [Index.take, hget]
  unfold deleteRow
  rw [Action.run_bind_ok hrun, Action.run_bind_ok (run_getIndex hlive), htake,
    Action.run_bind_ok (Action.run_lift _ _), Action.run_bind_ok (run_setIndex _ _),
    Action.run_bind_ok (@run_changePage (sh₁.withIndex _) _ _ hp _)]
  rfl

/-- A row that is there is deleted. -/
theorem Sound.deleteRow (h : Sound t primary 0 sh) {key : Entry} (hkey : key.fits t) {row : Row}
    (hrow : (sh.rows primary).get? key = some row) (pin : Bool) :
    ∃ sh', (Shelf.deleteRow key primary pin).run sh = (.ok (), sh') ∧ Sound t primary 0 sh' ∧
      Frame sh sh' ∧ sh'.store.lastPage = sh.store.lastPage ∧
      sh'.rows primary = (sh.rows primary).erase key ∧
      (pin = true → sh'.store.Pinned row.position) := by
  obtain ⟨p, sh₁, hrun, h₁, hmoves, hget, hp⟩ := h.find hrow
  have hagree := h₁.agree.remove hp hkey hget rfl
    (sh₁.store.pages.insert row.position (p.remove key row.byteSize).touched).get?
    fun m => SortedMap.get?_insert_eq h₁.pages _ m _
  have hseen : (p.remove key row.byteSize).touched.seen = p.seen := by
    unfold Page.remove
    split <;> rfl
  obtain ⟨sh₂, hsh₂, hsound, hframe, hrows, hlast, -, hpinned⟩ :=
    h₁.change hp (q := (p.remove key row.byteSize).touched) hseen rfl hagree pin
  refine ⟨sh₂, ?_, hsound, hmoves.toFrame.trans hframe, hlast.trans hmoves.lastPage, ?_, hpinned⟩
  · rw [run_deleteRow hrun h₁.live hget hp, run_modifyStore, hsh₂]
  · rw [hrows, h₁.agree.contentsOf_erase hkey hagree, ← hmoves.rows]
    rfl

/-! ## Updating -/

/-- Assigning to other columns leaves a column alone. -/
theorem getElem?_assign_of_ne {entries : List Entry} {assignments : List (Nat × Entry)}
    (h : ∀ a ∈ assignments, a.1 ≠ primary) :
    (assign entries assignments)[primary]? = entries[primary]? := by
  induction assignments generalizing entries with
  | nil => rfl
  | cons a rest ih =>
    show (assign (entries.set a.1 a.2) rest)[primary]? = _
    rw [ih fun b hb => h b (by simp [hb]), List.getElem?_set_ne (h a (by simp))]

theorem assignedKey_of_ne {index : Index Slot} {key : Entry} {assignments : List (Nat × Entry)}
    (h : ∀ a ∈ assignments, a.1 ≠ primary) :
    assignedKey index key primary assignments = .ok none := by
  induction assignments with
  | nil => rfl
  | cons a rest ih =>
    have ha := h a (by simp)
    simp only [assignedKey, ha, false_and, if_false]
    exact ih fun b hb => h b (by simp [hb])

/-- Which key assignments give to a row depends only on which keys there are. -/
theorem assignedKey_congr {index index' : Index Slot}
    (h : ∀ v, index'.contains v = index.contains v) (key : Entry) (assignments : List (Nat × Entry)) :
    assignedKey index' key primary assignments = assignedKey index key primary assignments := by
  induction assignments with
  | nil => rfl
  | cons a rest ih => simp only [assignedKey, h, ih]

theorem Moves.assignedKey {sh' : Shelf} (h : Moves primary sh sh') (key : Entry)
    (assignments : List (Nat × Entry)) :
    Shelf.assignedKey sh'.index key primary assignments =
      Shelf.assignedKey sh.index key primary assignments :=
  assignedKey_congr (fun v => by rw [contains_rows primary, h.rows, contains_rows primary]) key
    assignments

/-- What assignments leave in a column is what was there or a value assigned to it. -/
theorem mem_of_getElem?_assign {entries : List Entry} {assignments : List (Nat × Entry)} {e : Entry}
    (h : (assign entries assignments)[primary]? = some e) :
    entries[primary]? = some e ∨ (primary, e) ∈ assignments := by
  induction assignments generalizing entries with
  | nil => exact .inl h
  | cons a rest ih =>
    rcases @ih (entries.set a.1 a.2) h with hset | hmem
    · by_cases ha : a.1 = primary
      · rw [ha, List.getElem?_set] at hset
        simp only [if_true] at hset
        split at hset
        · obtain rfl : a.2 = e := by simpa using hset
          exact .inr (by simp [← ha])
        · cases hset
      · rw [List.getElem?_set_ne ha] at hset
        exact .inl hset
    · exact .inr (by simp [hmem])

theorem length_assign (entries : List Entry) (assignments : List (Nat × Entry)) :
    (assign entries assignments).length = entries.length := by
  induction assignments generalizing entries with
  | nil => rfl
  | cons a rest ih => exact (ih _).trans List.length_set

/-- If no column is assigned twice, the new key is what the assignments leave in the primary
column. -/
theorem assignedKey_eq {index : Index Slot} {key new : Entry} (entries : List Entry)
    {assignments : List (Nat × Entry)} (hdistinct : (assignments.map Prod.fst).Nodup)
    (hsame : ∃ old, entries[primary]? = some old ∧ old.same key = true)
    (hnew : (assign entries assignments)[primary]? = some new) :
    assignedKey index key primary assignments =
      if new.same key then .ok none
      else if index.contains new then .error (.duplicateKey new) else .ok (some new) := by
  induction assignments generalizing entries with
  | nil =>
    obtain ⟨old, hold, hsame⟩ := hsame
    obtain rfl : old = new := by simpa [assign, hold] using hnew
    simp [assignedKey, hsame]
  | cons a rest ih =>
    obtain ⟨column, value⟩ := a
    simp only [List.map_cons, List.nodup_cons] at hdistinct
    change (assign (entries.set column value) rest)[primary]? = some new at hnew
    by_cases hcolumn : column = primary
    · subst hcolumn
      -- nothing after this is assigned to the primary column
      have hrest : ∀ b ∈ rest, b.1 ≠ column := fun b hb heq =>
        hdistinct.1 (heq ▸ List.mem_map_of_mem hb)
      obtain ⟨old, hold, -⟩ := hsame
      obtain ⟨hlt, -⟩ := List.getElem?_eq_some_iff.1 hold
      rw [getElem?_assign_of_ne hrest, List.getElem?_set_self hlt, Option.some.injEq] at hnew
      subst hnew
      simp only [assignedKey, assignedKey_of_ne hrest, true_and]
      cases value.same key with
      | true => simp
      | false =>
        simp only [Bool.false_eq_true, not_false_eq_true, if_true, if_false]
        split <;> rfl
    · simp only [assignedKey, hcolumn, false_and, if_false]
      refine ih (entries.set column value) hdistinct.2 ?_ hnew
      rwa [List.getElem?_set_ne hcolumn]

theorem updateRow_length {key : Entry} {targets : List Nat} {values : List Entry}
    (hlength : targets.length ≠ values.length) (pin : Bool) (sh : Shelf) :
    (updateRow key primary targets values pin).run sh =
      (.error (.lengthMismatch targets.length values.length), sh) := by
  unfold updateRow
  simp only [hlength, ne_eq, not_false_eq_true, if_true]
  rfl

theorem Sound.updateRow_notFound (h : Sound t primary exempt sh) {key : Entry}
    (hrow : (sh.rows primary).get? key = none) {targets : List Nat} {values : List Entry}
    (hlength : targets.length = values.length) (pin : Bool) :
    (updateRow key primary targets values pin).run sh = (.error (.keyNotFound key), sh) := by
  unfold updateRow
  simp only [hlength, ne_eq, not_true_eq_false, if_false]
  rw [Action.run_bind_error (h.resolve_none (getKey?_eq_none hrow))]

/-- The rows after one of them has changed, perhaps its key as well. -/
def changedRows (primary : Nat) (rows : SortedMap Entry Row) (key : Entry) (row : Row) :
    SortedMap Entry Row :=
  if (row.keyAt primary).same key then rows.modify key fun _ => row
  else (rows.erase key).insert (row.keyAt primary) row

section Update

variable {key : Entry} {row changed : Row} {targets : List Nat} {values : List Entry}

/-- Assigning values of the type to the primary column keeps the row keyed. -/
theorem keyed_assign (hkeyed : row.Keyed t primary)
    (hvalues : ∀ v, (primary, v) ∈ targets.zip values → v.fits t)
    (hchanged : changed = { row with entries := assign row.entries (targets.zip values) }) :
    changed.Keyed t primary := by
  obtain ⟨old, hold, hfits⟩ := hkeyed
  have hlt : primary < changed.entries.length := by
    rw [hchanged, length_assign]
    exact (List.getElem?_eq_some_iff.1 hold).1
  refine ⟨changed.entries[primary], List.getElem?_eq_getElem hlt, ?_⟩
  have hget : (assign row.entries (targets.zip values))[primary]? = some changed.entries[primary] := by
    rw [← List.getElem?_eq_getElem hlt, hchanged]
  rcases mem_of_getElem?_assign hget with hrow | hmem
  · rw [hold, Option.some.injEq] at hrow
    exact hrow ▸ hfits
  · exact hvalues _ hmem

/-- The new key of a row whose columns are assigned once each. -/
theorem Sound.assignedKey (h : Sound t primary exempt sh) (hkey : key.fits t)
    (hrow : (sh.rows primary).get? key = some row) (hdistinct : targets.Nodup)
    (hlength : targets.length = values.length)
    (hvalues : ∀ v, (primary, v) ∈ targets.zip values → v.fits t)
    (hchanged : changed = { row with entries := assign row.entries (targets.zip values) }) :
    Shelf.assignedKey sh.index key primary (targets.zip values) =
      if (changed.keyAt primary).same key then .ok none
      else if (sh.rows primary).contains (changed.keyAt primary) then
        .error (.duplicateKey (changed.keyAt primary))
      else .ok (some (changed.keyAt primary)) := by
  obtain ⟨hkeyed, hsame, -⟩ := h.agree.keyed_of_get?_contentsOf hkey hrow
  have hkeyed' := keyed_assign hkeyed hvalues hchanged
  rw [← contains_rows primary sh]
  refine assignedKey_eq row.entries ?_ ?_ ?_
  · rwa [List.map_fst_zip (by omega)]
  · obtain ⟨old, hold, -⟩ := hkeyed
    exact ⟨old, hold, by simpa [Row.keyAt, hold] using hsame⟩
  · obtain ⟨new, hnew, -⟩ := hkeyed'
    rw [hchanged] at hnew
    rw [hnew, hchanged, Row.keyAt, hnew]
    rfl

/-- The shelf after the page of a key has been looked for. -/
def resolved (sh : Shelf) (key : Entry) (primary : Nat) : Shelf :=
  ((Shelf.resolve key primary).run sh).2

/-- An update that assigns a key of another row fails. -/
theorem Sound.updateRow_refused (h : Sound t primary 0 sh)
    (hrow : (sh.rows primary).get? key = some row) (hlength : targets.length = values.length)
    {e : Error}
    (hassigned : Shelf.assignedKey sh.index key primary (targets.zip values) = .error e)
    (pin : Bool) :
    (Shelf.updateRow key primary targets values pin).run sh = (.error e, sh.resolved key primary) ∧
      Sound t primary 0 (sh.resolved key primary) ∧ Moves primary sh (sh.resolved key primary) := by
  obtain ⟨p, sh₁, hrun, h₁, hmoves, -, -⟩ := h.find hrow
  rw [← hmoves.assignedKey] at hassigned
  rw [resolved, hrun]
  refine ⟨?_, h₁, hmoves⟩
  unfold Shelf.updateRow
  simp only [hlength, ne_eq, not_true_eq_false, if_false]
  rw [Action.run_bind_ok hrun, Action.run_bind_ok (run_getIndex h₁.live), hassigned,
    Action.run_bind_error (Action.run_lift _ _)]

/-- An update of a column that the row does not have fails. -/
theorem Sound.updateRow_outside (h : Sound t primary 0 sh)
    (hrow : (sh.rows primary).get? key = some row) (hlength : targets.length = values.length)
    {newKey : Option Entry}
    (hassigned : Shelf.assignedKey sh.index key primary (targets.zip values) = .ok newKey)
    {column : Nat}
    (hcolumn : targets.find? (fun c => decide (row.entries.length ≤ c)) = some column)
    (pin : Bool) :
    (Shelf.updateRow key primary targets values pin).run sh =
        (.error (.schemaMismatch (.noColumn row.entries.length column)), sh.resolved key primary) ∧
      Sound t primary 0 (sh.resolved key primary) ∧ Moves primary sh (sh.resolved key primary) := by
  obtain ⟨p, sh₁, hrun, h₁, hmoves, hget, -⟩ := h.find hrow
  rw [← hmoves.assignedKey] at hassigned
  have hfetch : sh₁.index.fetch key = .ok (.resident row) := by simp [Index.fetch, hget]
  rw [resolved, hrun]
  refine ⟨?_, h₁, hmoves⟩
  unfold Shelf.updateRow
  simp only [hlength, ne_eq, not_true_eq_false, if_false]
  rw [Action.run_bind_ok hrun, Action.run_bind_ok (run_getIndex h₁.live), hassigned,
    Action.run_bind_ok (Action.run_lift _ _), hfetch, Action.run_bind_ok (Action.run_lift _ _)]
  simp only [hcolumn]
  rfl

theorem Sound.updateRow_duplicate (h : Sound t primary 0 sh) (hkey : key.fits t)
    (hrow : (sh.rows primary).get? key = some row) (hdistinct : targets.Nodup)
    (hlength : targets.length = values.length)
    (hvalues : ∀ v, (primary, v) ∈ targets.zip values → v.fits t)
    (hchanged : changed = { row with entries := assign row.entries (targets.zip values) })
    (hsame : (changed.keyAt primary).same key = false)
    (hin : (sh.rows primary).contains (changed.keyAt primary) = true) (pin : Bool) :
    ∃ sh', (Shelf.updateRow key primary targets values pin).run sh =
        (.error (.duplicateKey (changed.keyAt primary)), sh') ∧
      Sound t primary 0 sh' ∧ Moves primary sh sh' := by
  have hassigned := h.assignedKey hkey hrow hdistinct hlength hvalues hchanged
  simp only [hsame, hin, if_true, Bool.false_eq_true, if_false] at hassigned
  exact ⟨_, h.updateRow_refused hrow hlength hassigned pin⟩

theorem Sound.updateRow_noColumn (h : Sound t primary 0 sh) (hkey : key.fits t)
    (hrow : (sh.rows primary).get? key = some row) (hdistinct : targets.Nodup)
    (hlength : targets.length = values.length)
    (hvalues : ∀ v, (primary, v) ∈ targets.zip values → v.fits t)
    (hchanged : changed = { row with entries := assign row.entries (targets.zip values) })
    (hfree : (changed.keyAt primary).same key = true ∨
      (sh.rows primary).contains (changed.keyAt primary) = false)
    {column : Nat}
    (hcolumn : targets.find? (fun c => decide (row.entries.length ≤ c)) = some column)
    (pin : Bool) :
    ∃ sh', (Shelf.updateRow key primary targets values pin).run sh =
        (.error (.schemaMismatch (.noColumn row.entries.length column)), sh') ∧
      Sound t primary 0 sh' ∧ Moves primary sh sh' := by
  have hassigned := h.assignedKey hkey hrow hdistinct hlength hvalues hchanged
  obtain ⟨new, hnew⟩ :
      ∃ new, Shelf.assignedKey sh.index key primary (targets.zip values) = .ok new := by
    rw [hassigned]
    rcases hfree with hsame | hin
    · exact ⟨none, by simp [hsame]⟩
    · simp only [hin, Bool.false_eq_true, if_false]
      split <;> exact ⟨_, rfl⟩
  exact ⟨_, h.updateRow_outside hrow hlength hnew hcolumn pin⟩

/-- The last steps of an update: the row has changed, and its page is told. -/
def finishUpdate (key : Entry) (row changed : Row) (pin : Bool) : Option Entry → Action Shelf Unit
  | some new => do
    let (slot, rest) ← (← getIndex).take key
    setIndex rest
    setIndex (← rest.put new slot)
    changePage row.position fun p => p.rename key new row.byteSize changed.byteSize
    modifyStore fun s => s.visit row.position pin
  | none => do
    changePage row.position fun p => p.resize row.byteSize changed.byteSize
    modifyStore fun s => s.visit row.position pin

theorem run_updateRow {sh₁ : Shelf} {index : Index Slot} {p : Page} {newKey : Option Entry}
    (hlength : targets.length = values.length)
    (hrun : (Shelf.resolve key primary).run sh = (.ok row.position, sh₁))
    (hlive : sh₁.store.index = some index)
    (hassigned : Shelf.assignedKey index key primary (targets.zip values) = .ok newKey)
    (hget : index.get? key = some (.resident row))
    (hp : sh₁.store.pages.get? row.position = some p)
    (hchanged : changed = { row with entries := assign row.entries (targets.zip values) })
    (hcolumns : targets.find? (fun c => decide (row.entries.length ≤ c)) = none) (pin : Bool) :
    (Shelf.updateRow key primary targets values pin).run sh =
      (finishUpdate key row changed pin newKey).run
        (sh₁.withIndex (index.modify key fun _ => .resident changed)) := by
  have hfetch : index.fetch key = .ok (.resident row) := by simp [Index.fetch, hget]
  have hresident (index : Index Slot) :
      ((sh₁.withIndex index).store.pages.get? row.position).isNone = false := by
    show (sh₁.store.pages.get? row.position).isNone = false
    rw [hp]
    rfl
  unfold Shelf.updateRow
  simp only [hlength, ne_eq, not_true_eq_false, if_false]
  rw [Action.run_bind_ok hrun, Action.run_bind_ok (run_getIndex hlive), hassigned,
    Action.run_bind_ok (Action.run_lift _ _), hfetch, Action.run_bind_ok (Action.run_lift _ _)]
  simp only [hcolumns, ← hchanged]
  rw [Action.run_bind_ok (run_setIndex _ _), Action.run_bind_ok (run_getStore _)]
  simp only [hresident, Bool.false_eq_true, if_false]
  cases newKey <;> rfl

/-- The last steps of an update that gives the row another key. -/
theorem Sound.run_finishUpdate (h : Sound t primary exempt sh) (hkey : key.fits t)
    (hget : sh.index.get? key = some (.resident row)) {p : Page}
    (hp : sh.store.pages.get? row.position = some p) {new : Entry} (hnew : new.fits t)
    (hnone : sh.index.get? new = none) (pin : Bool) :
    (finishUpdate key row changed pin (some new)).run
        (sh.withIndex (sh.index.modify key fun _ => .resident changed)) =
      (modifyStore fun s => s.visit row.position pin).run
        (sh.withRows (((sh.index.modify key fun _ => .resident changed).erase key).insert new
          (.resident changed)) row.position
          (p.rename key new row.byteSize changed.byteSize).touched) := by
  have htake : Index.take (sh.index.modify key fun _ => .resident changed) key =
      .ok (.resident changed, (sh.index.modify key fun _ => .resident changed).erase key) := by
    have hself : (sh.index.modify key fun _ => .resident changed).get? key =
        some (.resident changed) := by
      rw [SortedMap.get?_modify (Entry.orderedOn_fits t) h.agree.ascending hkey hkey,
        if_pos ((Entry.orderedOn_fits t).refl hkey), hget]
      rfl
    simp [Index.take, hself]
  have hput : Index.put ((sh.index.modify key fun _ => .resident changed).erase key) new
        (.resident changed) =
      .ok (((sh.index.modify key fun _ => .resident changed).erase key).insert new
        (.resident changed)) := by
    have hnone' : ((sh.index.modify key fun _ => .resident changed).erase key).get? new = none := by
      rw [SortedMap.erase_modify]
      exact SortedMap.get?_erase_eq_none (Entry.orderedOn_fits t) h.agree.ascending hkey hnew hnone
    simp [Index.put, SortedMap.getKey?_eq_none_iff.2 hnone']
  rw [finishUpdate, Action.run_bind_ok (@run_getIndex (sh.withIndex _) _ rfl), htake,
    Action.run_bind_ok (Action.run_lift _ _), Action.run_bind_ok (run_setIndex _ _), hput,
    Action.run_bind_ok (Action.run_lift _ _), Action.run_bind_ok (run_setIndex _ _),
    withIndex_withIndex, withIndex_withIndex,
    Action.run_bind_ok (@run_changePage (sh.withIndex _) _ _ hp _)]
  rfl

/-- An update whose new key is the one that the changed row has changes the row. -/
theorem Sound.updateRow_follows (h : Sound t primary 0 sh) (hkey : key.fits t)
    (hrow : (sh.rows primary).get? key = some row) (hlength : targets.length = values.length)
    (hchanged : changed = { row with entries := assign row.entries (targets.zip values) })
    (hkeyed' : changed.Keyed t primary)
    (hassigned : Shelf.assignedKey sh.index key primary (targets.zip values) =
      .ok (if (changed.keyAt primary).same key then none else some (changed.keyAt primary)))
    (hfree : (changed.keyAt primary).same key = true ∨
      (sh.rows primary).contains (changed.keyAt primary) = false)
    (hcolumns : targets.find? (fun c => decide (row.entries.length ≤ c)) = none) (pin : Bool) :
    ∃ sh', (Shelf.updateRow key primary targets values pin).run sh = (.ok (), sh') ∧
      Sound t primary 0 sh' ∧ Frame sh sh' ∧ sh'.store.lastPage = sh.store.lastPage ∧
      sh'.rows primary = changedRows primary (sh.rows primary) key changed ∧
      (pin = true → sh'.store.Pinned row.position) := by
  obtain ⟨p, sh₁, hrun, h₁, hmoves, hget, hp⟩ := h.find hrow
  rw [← hmoves.assignedKey] at hassigned
  have hposition : changed.position = row.position := by rw [hchanged]
  cases hsame : (changed.keyAt primary).same key with
  | true =>
    simp only [hsame, if_true] at hassigned
    have hagree := h₁.agree.replace hp hkey hget rfl hkeyed' hposition hsame
      (sh₁.store.pages.insert row.position
        (p.resize row.byteSize changed.byteSize).touched).get?
      fun m => SortedMap.get?_insert_eq h₁.pages _ m _
    obtain ⟨sh₂, hsh₂, hsound, hframe, hrows, hlast, -, hpinned⟩ := h₁.change hp
      (q := (p.resize row.byteSize changed.byteSize).touched) rfl rfl hagree pin
    refine ⟨sh₂, ?_, hsound, hmoves.toFrame.trans hframe, hlast.trans hmoves.lastPage, ?_, hpinned⟩
    · rw [run_updateRow hlength hrun h₁.live hassigned hget hp hchanged hcolumns, finishUpdate,
        Action.run_bind_ok (@run_changePage (sh₁.withIndex _) _ _ hp _), run_modifyStore, hsh₂]
      rfl
    · rw [hrows, h₁.agree.contentsOf_modify hkey _ hagree, changedRows, if_pos hsame, ← hmoves.rows]
      rfl
  | false =>
    have hin : (sh.rows primary).contains (changed.keyAt primary) = false := by
      rcases hfree with hsame' | hin
      · simp [hsame] at hsame'
      · exact hin
    have hnone : sh₁.index.get? (changed.keyAt primary) = none := by
      rw [← SortedMap.contains_eq_false_iff, contains_rows primary, hmoves.rows, hin]
    simp only [hsame, Bool.false_eq_true, if_false] at hassigned
    have hagree := h₁.agree.rename hp hkey hget rfl hkeyed' hposition hnone
      (sh₁.store.pages.insert row.position
        (p.rename key (changed.keyAt primary) row.byteSize changed.byteSize).touched).get?
      fun m => SortedMap.get?_insert_eq h₁.pages _ m _
    obtain ⟨sh₂, hsh₂, hsound, hframe, hrows, hlast, -, hpinned⟩ := h₁.change hp
      (q := (p.rename key (changed.keyAt primary) row.byteSize changed.byteSize).touched) rfl rfl
      hagree pin
    refine ⟨sh₂, ?_, hsound, hmoves.toFrame.trans hframe, hlast.trans hmoves.lastPage, ?_, hpinned⟩
    · rw [run_updateRow hlength hrun h₁.live hassigned hget hp hchanged hcolumns,
        h₁.run_finishUpdate hkey hget hp hkeyed'.fits hnone, run_modifyStore, hsh₂]
    · rw [hrows, h₁.agree.contentsOf_rename hkey hkeyed'.fits _ hagree, changedRows, hsame,
        ← hmoves.rows]
      rfl

/-- Any other update changes the row. -/
theorem Sound.updateRow (h : Sound t primary 0 sh) (hkey : key.fits t)
    (hrow : (sh.rows primary).get? key = some row) (hdistinct : targets.Nodup)
    (hlength : targets.length = values.length)
    (hvalues : ∀ v, (primary, v) ∈ targets.zip values → v.fits t)
    (hchanged : changed = { row with entries := assign row.entries (targets.zip values) })
    (hfree : (changed.keyAt primary).same key = true ∨
      (sh.rows primary).contains (changed.keyAt primary) = false)
    (hcolumns : targets.find? (fun c => decide (row.entries.length ≤ c)) = none) (pin : Bool) :
    ∃ sh', (Shelf.updateRow key primary targets values pin).run sh = (.ok (), sh') ∧
      Sound t primary 0 sh' ∧ Frame sh sh' ∧ sh'.store.lastPage = sh.store.lastPage ∧
      sh'.rows primary = changedRows primary (sh.rows primary) key changed ∧
      (pin = true → sh'.store.Pinned row.position) := by
  have hkeyed' :=
    keyed_assign (h.agree.keyed_of_get?_contentsOf hkey hrow).1 hvalues hchanged
  refine h.updateRow_follows hkey hrow hlength hchanged hkeyed' ?_ hfree hcolumns pin
  rw [h.assignedKey hkey hrow hdistinct hlength hvalues hchanged]
  split
  · rfl
  · rename_i hother
    rw [if_neg (by simp [hfree.resolve_left hother])]

end Update

end Shelf

end PageDb
