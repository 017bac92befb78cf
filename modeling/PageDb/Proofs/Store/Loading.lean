import PageDb.Proofs.Store.Rows

/-!
Loading a page that an earlier run left.

A page of rows with new keys is added as the next page, in memory while there is room and as evicted
otherwise.  Its rows are those of its file, so the views agree afterwards without any write.
-/

namespace PageDb

variable {t : ColumnType} {primary : Nat}

/-- Rows that may be added together: each has a key of the type, none is in the index, and none
repeats. -/
structure Fresh (t : ColumnType) (primary : Nat) (index : Index Slot) (rows : List Row) : Prop where
  keyed : ∀ r ∈ rows, r.Keyed t primary
  new : ∀ r ∈ rows, index.get? (r.keyAt primary) = none
  distinct : rows.Pairwise fun a b => (a.keyAt primary).same (b.keyAt primary) = false

namespace Fresh

variable {index : Index Slot} {r : Row} {rows : List Row}

theorem placedOn (h : Fresh t primary index rows) (n : Nat) :
    Fresh t primary index (rows.map fun r => r.placedOn n) := by
  constructor
  · intro q hq
    obtain ⟨r, hr, rfl⟩ := List.mem_map.1 hq
    exact h.keyed r hr
  · intro q hq
    obtain ⟨r, hr, rfl⟩ := List.mem_map.1 hq
    exact h.new r hr
  · exact List.pairwise_map.2 h.distinct

theorem cons_iff : Fresh t primary index (r :: rows) ↔
    r.Keyed t primary ∧ index.get? (r.keyAt primary) = none ∧
      (∀ q ∈ rows, (r.keyAt primary).same (q.keyAt primary) = false) ∧
      Fresh t primary index rows := by
  constructor
  · intro h
    have hkeyed := List.forall_mem_cons.1 h.keyed
    have hnew := List.forall_mem_cons.1 h.new
    have hdistinct := List.pairwise_cons.1 h.distinct
    exact ⟨hkeyed.1, hnew.1, hdistinct.1, hkeyed.2, hnew.2, hdistinct.2⟩
  · rintro ⟨hkeyed, hnew, hdistinct, h⟩
    exact ⟨List.forall_mem_cons.2 ⟨hkeyed, h.keyed⟩, List.forall_mem_cons.2 ⟨hnew, h.new⟩,
      List.pairwise_cons.2 ⟨hdistinct, h.distinct⟩⟩

/-- After the first row has been added the others are still new. -/
theorem tail (h : Fresh t primary index (r :: rows)) (hindex : index.Ascending (Entry.fits t))
    (slot : Slot) : Fresh t primary (index.insert (r.keyAt primary) slot) rows := by
  obtain ⟨hr, -, hdistinct, hrest⟩ := cons_iff.1 h
  refine ⟨hrest.keyed, fun q hq => ?_, hrest.distinct⟩
  exact (Entry.get?_insert_eq_none_iff hindex hr.fits (hrest.keyed q hq).fits slot).2
    ⟨hdistinct q hq, hrest.new q hq⟩

end Fresh

namespace Shelf

/-- The check before loading accepts the rows that are fresh, and none of the keys seen so far. -/
theorem newKeys_eq_ok_iff (index : Index Slot) {seen : SortedMap Entry Unit}
    (hseen : seen.Ascending (Entry.fits t)) {rows : List Row}
    (hfits : ∀ r ∈ rows, ∀ key, r.entries[primary]? = some key → key.fits t) :
    newKeys index primary seen rows = .ok () ↔
      Fresh t primary index rows ∧ ∀ r ∈ rows, seen.get? (r.keyAt primary) = none := by
  induction rows generalizing seen with
  | nil => exact ⟨fun _ => ⟨⟨by simp, by simp, .nil⟩, by simp⟩, fun _ => rfl⟩
  | cons r rest ih =>
    unfold newKeys
    rw [Fresh.cons_iff, List.forall_mem_cons]
    cases hkey : r.entries[primary]? with
    | none =>
      simp only [Row.key, hkey, Result.error_bind, reduceCtorEq, false_iff]
      rintro ⟨⟨⟨key, hkey', -⟩, -⟩, -⟩
      simp [hkey] at hkey'
    | some key =>
      have hkeyAt : r.keyAt primary = key := by simp [Row.keyAt, hkey]
      have hkeyed : r.Keyed t primary := ⟨key, hkey, hfits r (by simp) key hkey⟩
      have hkeyfits : key.fits t := hkeyAt ▸ hkeyed.fits
      simp only [Row.key, hkey, Result.ok_bind, hkeyAt]
      by_cases hin : index.contains key = true ∨ seen.contains key = true
      · simp only [Bool.or_eq_true, hin, if_true]
        refine iff_of_false (fun h => by cases h) ?_
        rintro ⟨⟨-, hnew, -⟩, hunseen, -⟩
        rw [← SortedMap.contains_eq_false_iff] at hnew hunseen
        simp [hnew, hunseen] at hin
      · simp only [Bool.or_eq_true, hin, if_false]
        simp only [not_or, Bool.not_eq_true, SortedMap.contains_eq_false_iff] at hin
        rw [ih (hseen.insert (Entry.orderedOn_fits t) hkeyfits ()) fun q hq => hfits q (by simp [hq])]
        -- the key of this row is one of the keys seen when the others are checked
        have hunseen (h : Fresh t primary index rest) {q : Row} (hq : q ∈ rest) :=
          Entry.get?_insert_eq_none_iff hseen hkeyfits (h.keyed q hq).fits ()
        constructor
        · rintro ⟨h, hrest⟩
          have hrest q hq := (hunseen h hq).1 (hrest q hq)
          exact ⟨⟨hkeyed, hin.1, fun q hq => (hrest q hq).1, h⟩, hin.2, fun q hq => (hrest q hq).2⟩
        · rintro ⟨⟨-, -, hdistinct, h⟩, -, hrest⟩
          exact ⟨h, fun q hq => (hunseen h hq).2 ⟨hdistinct q hq, hrest q hq⟩⟩

/-- Fresh rows get their slots. -/
theorem run_loadRows (resident : Bool) (page : Page) {rows : List Row} {index : Index Slot}
    {sh : Shelf} (hlive : sh.store.index = some index) (hindex : index.Ascending (Entry.fits t))
    (hrows : Fresh t primary index rows) :
    ∃ loaded, (loadRows primary resident page rows).run sh =
        (.ok loaded, sh.withIndex (index.insertAll (slotsOf primary
          (fun r => if resident then .resident r else .evicted page.number)
          (rows.map fun r => r.placedOn page.number)))) ∧
      loaded.number = page.number ∧ loaded.pinned = page.pinned ∧
      (resident = true → loaded.keys = page.keys ++ rows.map (fun r => r.keyAt primary) ∧
        loaded.size = page.size + rowBytes rows) := by
  induction rows generalizing page index sh with
  | nil =>
    refine ⟨page, ?_, rfl, rfl, fun _ => ⟨by simp, by simp [rowBytes]⟩⟩
    show (loadRows primary resident page []).run sh = (.ok page, sh.withIndex index)
    rw [withIndex_self hlive]
    rfl
  | cons r rest ih =>
    have hkeyed := hrows.keyed r (by simp)
    have hkey : (r.placedOn page.number).key primary = .ok (r.keyAt primary) := hkeyed.key
    let slot : Slot := if resident then .resident (r.placedOn page.number) else .evicted page.number
    have hput : index.put (r.keyAt primary) slot = .ok (index.insert (r.keyAt primary) slot) := by
      simp [Index.put, SortedMap.getKey?_eq_none_iff.2 (hrows.new r (by simp))]
    let next : Page := if resident then page.add (r.keyAt primary) r.byteSize else page
    have hnext : next.number = page.number ∧ next.pinned = page.pinned := by
      cases resident <;> exact ⟨rfl, rfl⟩
    obtain ⟨loaded, hrun, hnumber, hpinned, hresident⟩ := @ih next _
      (sh.withIndex (index.insert (r.keyAt primary) slot)) rfl
      (hindex.insert (Entry.orderedOn_fits t) hkeyed.fits slot) (hrows.tail hindex slot)
    refine ⟨loaded, ?_, hnumber.trans hnext.1, hpinned.trans hnext.2, fun hr => ?_⟩
    · simp only [loadRows, hkey]
      rw [Action.run_bind_ok (Action.run_lift _ _), Action.run_bind_ok (run_getIndex hlive)]
      rw [show (if resident = true then Slot.resident (r.placedOn page.number)
        else .evicted page.number) = slot from rfl, hput, Action.run_bind_ok (Action.run_lift _ _),
        Action.run_bind_ok (run_setIndex _ _)]
      refine hrun.trans ?_
      rw [hnext.1]
      rfl
    · obtain ⟨hkeys, hsize⟩ := hresident hr
      subst hr
      refine ⟨by simpa [next, Page.add] using hkeys, ?_⟩
      simp only [hsize, next, Page.add, rowBytes, List.foldr_cons, if_true]
      omega

section InsertPage

variable {sh : Shelf} {rows : List Row}

theorem Sound.get?_next (h : Sound t primary 0 sh) :
    sh.store.pages.get? (sh.store.lastPage + 1) = none := by
  cases hp : sh.store.pages.get? (sh.store.lastPage + 1) with
  | none => rfl
  | some p =>
    have hle := (h.agree.within hp).2
    omega

/-- Rows that are not fresh are refused, and nothing happens. -/
theorem Sound.insertPage_error (h : Sound t primary 0 sh)
    (hfits : ∀ r ∈ rows, ∀ key, r.entries[primary]? = some key → key.fits t)
    (hrows : ¬ Fresh t primary sh.index rows) :
    ∃ e, (insertPage rows primary).run sh = (.error e, sh) := by
  have hnew := newKeys_eq_ok_iff sh.index SortedMap.ascending_empty hfits
  cases hresult : newKeys sh.index primary ∅ rows with
  | ok u => exact absurd (hnew.1 hresult).1 hrows
  | error e =>
    refine ⟨e, ?_⟩
    unfold insertPage
    rw [Action.run_bind_ok (run_getIndex h.live), hresult, Action.run_bind_error (Action.run_lift _ _)]

/-- The slot of a loaded row. -/
def loadedSlot (resident : Bool) (n : Nat) (r : Row) : Slot :=
  if resident then .resident r else .evicted n

/-- The store after fresh rows have got their slots on the next page. -/
def withLoaded (sh : Shelf) (primary : Nat) (resident : Bool) (rows : List Row) : Store :=
  let n := sh.store.lastPage + 1
  { sh.store with
    index := some (sh.index.insertAll
      (slotsOf primary (loadedSlot resident n) (rows.map fun r => r.placedOn n)))
    lastPage := n }

/-- Loading fresh rows succeeds. -/
theorem Sound.run_insertPage (h : Sound t primary 0 sh) (hrows : Fresh t primary sh.index rows) :
    ∃ page : Page, page.number = sh.store.lastPage + 1 ∧ page.pinned = false ∧
      (sh.store.pages.size < sh.store.cap → page.keys = rows.map (fun r => r.keyAt primary) ∧
        page.size = rowBytes rows) ∧
      (insertPage rows primary).run sh =
        if sh.store.pages.size < sh.store.cap then
          (.ok true, { sh with store :=
            (sh.withLoaded primary true rows).bring (sh.store.lastPage + 1) page })
        else (.ok false, { sh with store := sh.withLoaded primary false rows }) := by
  have hnewKeys : newKeys sh.index primary ∅ rows = .ok () :=
    (newKeys_eq_ok_iff (t := t) sh.index SortedMap.ascending_empty fun r hr key hkey => by
      have hfits := (hrows.keyed r hr).fits
      simpa [Row.keyAt, hkey] using hfits).2 ⟨hrows, fun _ _ => rfl⟩
  obtain ⟨page, hload, hnumber, hpinned, hpage⟩ :=
    run_loadRows (decide (sh.store.pages.size < sh.store.cap)) { number := sh.store.lastPage + 1 }
      h.live h.agree.ascending hrows
  refine ⟨page, hnumber, hpinned, fun hroom => ?_, ?_⟩
  · simpa using hpage (decide_eq_true hroom)
  unfold insertPage
  simp only [Action.run_bind_ok (run_getIndex h.live), hnewKeys,
    Action.run_bind_ok (Action.run_lift _ _), Action.run_bind_ok (run_getStore _)]
  rw [Action.run_bind_ok hload, Action.run_bind_ok (run_modifyStore _ _)]
  by_cases hroom : sh.store.pages.size < sh.store.cap
  · simp only [hroom, decide_true, if_true]
    rw [Action.run_bind_ok (run_modifyStore _ _), Action.run_bind_ok (run_modifyStore _ _)]
    rfl
  · simp only [hroom, decide_false, Bool.false_eq_true, if_false]
    rfl

/-- What loading a page leaves. -/
structure Loaded (t : ColumnType) (primary : Nat) (rows : List Row) (sh sh' : Shelf) : Prop where
  sound : Sound t primary 0 sh'
  frame : Frame sh sh'
  lastPage : sh'.store.lastPage = sh.store.lastPage + 1
  stored : ∀ m, sh'.stored? m = sh.stored? m
  directory : sh'.disk.directory = sh.disk.directory
  rows : sh'.rows primary = (sh.rows primary).insertAll
    (rows.map fun r => (r.keyAt primary, r.placedOn (sh.store.lastPage + 1)))

/-- Fresh rows that are in the file of the next page are loaded. -/
theorem Sound.insertPage (h : Sound t primary 0 sh)
    (hfile : sh.stored? (sh.store.lastPage + 1) =
      some (rows.map fun r => r.placedOn (sh.store.lastPage + 1)))
    (hrows : Fresh t primary sh.index rows) :
    ∃ resident sh', (Shelf.insertPage rows primary).run sh = (.ok resident, sh') ∧
      Loaded t primary rows sh sh' := by
  let n := sh.store.lastPage + 1
  let placed := rows.map fun r => r.placedOn n
  have hplaced : Fresh t primary sh.index placed := hrows.placedOn n
  have hkeyed : ∀ r ∈ placed, r.Keyed t primary ∧ r.position = n := fun r hr => by
    refine ⟨hplaced.keyed r hr, ?_⟩
    obtain ⟨q, -, rfl⟩ := List.mem_map.1 hr
    rfl
  have hsettles (slot : Row → Slot) :=
    h.agree.settles_load slot hkeyed hplaced.distinct hplaced.new
  have hlast : sh.store.lastPage ≤ n ∧ ∀ m, m ≠ n → m ≤ n → m ≤ sh.store.lastPage :=
    ⟨by omega, fun m _ _ => by omega⟩
  have hn : 0 < n ∧ n ≤ n := ⟨by omega, Nat.le_refl _⟩
  have hcontents (slot : Row → Slot) {sh' : Shelf} (h' : Sound t primary 0 sh')
      (hindex : sh'.index = sh.index.insertAll (slotsOf primary slot placed))
      (hstored : sh'.stored? = sh.stored?)
      (hrow : ∀ r ∈ placed, ∀ k, k.fits t → (r.keyAt primary).same k = true →
        (slot r).row primary sh.stored? k = r) :
      sh'.rows primary = (sh.rows primary).insertAll
        (rows.map fun r => (r.keyAt primary, r.placedOn n)) := by
    have hagree := h'.agree
    rw [hindex, hstored] at hagree
    rw [Shelf.rows, hindex, hstored, h.agree.contentsOf_load slot (hsettles slot) hagree hrow]
    simp only [placed, List.map_map]
    rfl
  obtain ⟨page, hnumber, hpinned, hpage, hrun⟩ := h.run_insertPage hrows
  rw [hrun]
  split
  · rename_i hroom
    obtain ⟨hkeys, hsize⟩ := hpage hroom
    have hholds : Holds primary n placed page := by
      refine ⟨hnumber, by simp [hkeys, placed, Function.comp_def], ?_⟩
      simp [hsize, placed, rowBytes, List.foldr_map]
    obtain ⟨hsound, hframe, hindex, hstored⟩ := h.bring 0 (s := sh.withLoaded primary true rows)
      ⟨rfl, rfl, rfl, rfl, rfl, rfl⟩ (Eq.refl sh.disk.directory) rfl (hsettles .resident) hholds
      hpinned h.get?_next hlast hn (fun _ _ _ hm => hm) fun _ => hfile
    exact ⟨true, _, rfl, hsound, hframe, (Store.alike_bring _ _ _).lastPage,
      fun m => congrFun hstored m, rfl,
      hcontents .resident hsound hindex hstored fun _ _ _ _ _ => rfl⟩
  · let sh' : Shelf := { sh with store := sh.withLoaded primary false rows }
    have hsound : Sound t primary 0 sh' := by
      refine ⟨rfl, h.pages, ?_, h.tracks, h.ordered⟩
      refine h.agree.sendOut (hsettles fun _ => .evicted n) hlast hn (fun m => ?_) hfile
      by_cases hm : m = n
      · rw [if_pos hm, hm]
        exact h.get?_next
      · rw [if_neg hm]
        rfl
    have hframe : Frame sh sh' :=
      ⟨rfl, rfl, rfl, rfl, hlast.1, .of_directory_eq rfl, fun _ _ _ hm => hm⟩
    exact ⟨false, sh', rfl, hsound, hframe, rfl, fun _ => rfl, rfl,
      hcontents (fun _ => .evicted n) hsound rfl rfl fun r hr k hk hsame =>
        hsound.agree.row_of_evicted h.get?_next hn hfile hr hk hsame⟩

end InsertPage

end Shelf

end PageDb
