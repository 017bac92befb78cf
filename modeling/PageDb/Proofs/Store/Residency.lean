import PageDb.Proofs.Store.Sound

/-!
Moving pages between memory and disk changes no row.

Each operation of `Store/Residency` gets one lemma.  It says that the operation ends, that the shelf
is sound afterwards and that pages have only moved, and what the answer says.
-/

namespace PageDb

namespace Shelf

/-! ## Runs of the smallest operations -/

/-- The shelf with another index. -/
def withIndex (sh : Shelf) (index : Index Slot) : Shelf :=
  { sh with store := { sh.store with index := some index } }

theorem withIndex_self {sh : Shelf} {index : Index Slot} (h : sh.store.index = some index) :
    sh.withIndex index = sh := by
  simp [withIndex, ← h]

theorem withIndex_withIndex (sh : Shelf) (index index' : Index Slot) :
    (sh.withIndex index).withIndex index' = sh.withIndex index' := rfl

section Runs

variable {sh : Shelf}

theorem run_getStore (sh : Shelf) : getStore.run sh = (.ok sh.store, sh) := rfl

theorem run_modifyStore (f : Store → Store) (sh : Shelf) :
    (modifyStore f).run sh = (.ok (), { sh with store := f sh.store }) := rfl

theorem run_setIndex (index : Index Slot) (sh : Shelf) :
    (setIndex index).run sh = (.ok (), sh.withIndex index) := rfl

theorem run_onDisk {α : Type} (action : Action Disk α) (sh : Shelf) :
    (onDisk action).run sh = ((action.run sh.disk).1, { sh with disk := (action.run sh.disk).2 }) :=
  rfl

theorem run_getIndex {index : Index Slot} (h : sh.store.index = some index) :
    getIndex.run sh = (.ok index, sh) := by
  simp only [getIndex, Action.run_bind, run_getStore, Store.liveIndex, h, Action.run_lift]

/-- Keys that are in the index get the slot of an evicted page. -/
theorem run_markEvicted (n : Nat) {keys : List Entry} {index : Index Slot} {sh : Shelf}
    (hlive : sh.store.index = some index) (hkeys : ∀ k ∈ keys, (index.get? k).isSome) :
    (markEvicted n keys).run sh =
      (.ok (), sh.withIndex (index.overwrite (evictedSlots n keys))) := by
  induction keys generalizing index sh with
  | nil =>
    show (markEvicted n []).run sh = (.ok (), sh.withIndex index)
    rw [withIndex_self hlive]
    rfl
  | cons k rest ih =>
    obtain ⟨old, hold⟩ := Option.isSome_iff_exists.1 (hkeys k (by simp))
    have hexchange : index.exchange k (.evicted n) =
        .ok (old, index.modify k fun _ => .evicted n) := by simp [Index.exchange, hold]
    rw [markEvicted, Action.run_bind_ok (run_getIndex hlive), hexchange, Action.run_bind_ok
      (Action.run_lift _ _), Action.run_bind_ok (run_setIndex _ _)]
    refine ih rfl fun j hj => ?_
    rw [SortedMap.isSome_get?_congr (index.keys_modify k _)]
    exact hkeys j (by simp [hj])

/-- Keys that are in the index get rows that were read from a file. -/
theorem run_reinstate {t : ColumnType} (primary : Nat) {rows : List Row} (page : Page)
    {index : Index Slot} {sh : Shelf} (hlive : sh.store.index = some index)
    (hrows : ∀ r ∈ rows, r.Keyed t primary ∧ (index.get? (r.keyAt primary)).isSome) :
    ∃ restored, (reinstate primary page rows).run sh =
        (.ok restored, sh.withIndex (index.overwrite
          (slotsOf primary .resident (rows.map fun r => r.placedOn page.number)))) ∧
      restored.number = page.number ∧
      restored.keys = page.keys ++ rows.map (fun r => r.keyAt primary) ∧
      restored.size = page.size + rowBytes rows ∧ restored.lastVisit = page.lastVisit ∧
      restored.dirty = page.dirty ∧ restored.pinned = page.pinned := by
  induction rows generalizing page index sh with
  | nil =>
    refine ⟨page, ?_, rfl, by simp, by simp [rowBytes], rfl, rfl, rfl⟩
    show (reinstate primary page []).run sh = (.ok page, sh.withIndex index)
    rw [withIndex_self hlive]
    rfl
  | cons r rest ih =>
    obtain ⟨hkeyed, hbound⟩ := hrows r (by simp)
    obtain ⟨old, hold⟩ := Option.isSome_iff_exists.1 hbound
    have hkey : (r.placedOn page.number).key primary = .ok (r.keyAt primary) := hkeyed.key
    have hexchange : index.exchange (r.keyAt primary) (.resident (r.placedOn page.number)) =
        .ok (old, index.modify (r.keyAt primary) fun _ => .resident (r.placedOn page.number)) := by
      simp [Index.exchange, hold]
    obtain ⟨restored, hrun, hnumber, hkeys, hsize, hrest⟩ :=
      @ih (page.add (r.keyAt primary) r.byteSize) _ (sh.withIndex
        (index.modify (r.keyAt primary) fun _ => .resident (r.placedOn page.number)))
        rfl fun q hq => by
          refine ⟨(hrows q (by simp [hq])).1, ?_⟩
          rw [SortedMap.isSome_get?_congr (index.keys_modify _ _)]
          exact (hrows q (by simp [hq])).2
    refine ⟨restored, ?_, hnumber, by simpa [Page.add] using hkeys, ?_, hrest⟩
    · simp only [reinstate, hkey]
      rw [Action.run_bind_ok (Action.run_lift _ _), Action.run_bind_ok (run_getIndex hlive),
        hexchange, Action.run_bind_ok (Action.run_lift _ _), Action.run_bind_ok (run_setIndex _ _)]
      exact hrun
    · simp only [hsize, Page.add, rowBytes, List.foldr_cons]
      omega

end Runs

/-! ## Writing a page -/

section Moving

variable {t : ColumnType} {primary exempt : Nat} {sh : Shelf}

/-- Writing a page in memory writes its rows to the file with its number. -/
theorem Sound.run_writePage (h : Sound t primary exempt sh) {n : Nat} {p : Page}
    (hp : sh.store.pages.get? n = some p) :
    (Shelf.writePage p).run sh =
      match PageImage.encode (Store.pageRows sh.index p) with
      | .error e => (.error e, sh)
      | .ok image => (((Disk.write (sh.store.fileName n) image).run sh.disk).1,
          { sh with disk := ((Disk.write (sh.store.fileName n) image).run sh.disk).2 }) := by
  simp only [Shelf.writePage, Action.run_bind, run_getStore, Action.run_lift, h.liveIndex,
    (h.agree.inMemory hp).number]
  cases PageImage.encode (Store.pageRows sh.index p) <;> rfl

/-- Writing a page in memory either succeeds, and the file holds its rows, or fails, and its file is
as it was. -/
theorem Sound.writePage (h : Sound t primary exempt sh) {n : Nat} {p : Page}
    (hp : sh.store.pages.get? n = some p) :
    ∃ r sh', (Shelf.writePage p).run sh = (r, sh') ∧ Sound t primary exempt sh' ∧
      Moves primary sh sh' ∧ sh'.store = sh.store ∧ (∀ m, m ≠ n → sh'.image? m = sh.image? m) ∧
      (r = .ok () → Matches sh.index sh'.stored? n p ∧ sh'.Filed n) := by
  rw [h.run_writePage hp]
  cases hencode : PageImage.encode (Store.pageRows sh.index p) with
  | error e => exact ⟨_, _, rfl, h, .refl sh, rfl, fun _ _ => rfl, by simp⟩
  | ok image =>
    obtain ⟨r, disk, hwrite, hordered, hchanges, hresult⟩ :=
      Disk.write_run h.ordered (sh.store.fileName n) (PageFile.name_ne_temporary _ _ n _) image
    simp only [hwrite]
    have himage (m : Nat) (hm : m ≠ n) : image? { sh with disk := disk } m = sh.image? m := by
      refine hchanges.others _ ?_
      rintro (heq | heq)
      · exact hm (PageFile.name_injective _ _ heq)
      · exact PageFile.name_ne_temporary _ _ m _ heq
    have hothers (m : Nat) (hm : m ≠ n) : stored? { sh with disk := disk } m = sh.stored? m :=
      stored?_congr (himage m hm)
    have hdisk : Disk.Changes (Owns sh.store) sh.disk disk :=
      hchanges.mono fun f hf => ⟨n, (h.agree.within hp).1, (h.agree.within hp).2, hf⟩
    rcases hresult with ⟨rfl, hread⟩ | ⟨rfl, hread⟩
    · have hself : stored? { sh with disk := disk } n = some (Store.pageRows sh.index p) := by
        refine stored?_eq_some_iff.2 (.inr ⟨image, _, hread, (PageImage.reads_encode hencode).decode,
          ?_⟩)
        exact (Row.map_placedOn fun r hr => (h.agree.mem_pageRows hp hr).2.1).symm
      have hfile (m : Nat) : stored? { sh with disk := disk } m =
          if m = n then some (Store.pageRows sh.index p) else sh.stored? m := by
        by_cases hm : m = n
        · rw [if_pos hm, hm, hself]
        · rw [if_neg hm, hothers m hm]
      have hagree := h.agree.write hp hfile
      have hfiled : Filed { sh with disk := disk } n := by rw [Filed, image?, hread]; rfl
      refine ⟨_, _, rfl, ⟨h.live, h.pages, hagree, h.tracks, hordered⟩,
        ⟨⟨rfl, rfl, rfl, rfl, Nat.le_refl _, hdisk, fun m _ _ hsafe => ?_⟩, rfl,
          h.agree.contentsOf_write hp hothers hagree⟩, rfl, himage, fun _ => ⟨hself, hfiled⟩⟩
      refine hsafe.imp id fun hstored => ?_
      by_cases hm : m = n
      · exact hm ▸ hfiled
      · rwa [Filed, himage m hm]
    · have himage' (m : Nat) : image? { sh with disk := disk } m = sh.image? m := by
        by_cases hm : m = n
        · exact hm ▸ hread
        · exact himage m hm
      have hfile : stored? { sh with disk := disk } = sh.stored? :=
        funext fun m => stored?_congr (himage' m)
      refine ⟨_, _, rfl, ⟨h.live, h.pages, ?_, h.tracks, hordered⟩,
        ⟨⟨rfl, rfl, rfl, rfl, Nat.le_refl _, hdisk, fun m _ _ hsafe => ?_⟩, rfl, ?_⟩, rfl, himage,
        by simp⟩
      · rw [hfile]
        exact h.agree
      · exact hsafe.imp id fun hstored => by rwa [Filed, himage']
      · rw [rows, hfile]
        rfl

/-! ## Evicting a page -/

/-- Keys whose page is in its file. -/
def Evicted (t : ColumnType) (sh : Shelf) (k : Entry) (n : Nat) : Prop :=
  k.fits t ∧ sh.index.get? k = some (.evicted n)

/-- The shelf after a page has left memory. -/
def withoutPage (sh : Shelf) (n : Nat) (p : Page) : Shelf :=
  { sh with store :=
    ({ sh.store with index := some (sh.index.overwrite (evictedSlots n p.keys)) } :
      Store).forgetPage n }

/-- A page that matches its file may leave memory. -/
theorem Sound.withoutPage (h : Sound t primary exempt sh) {n : Nat} {p : Page}
    (hp : sh.store.pages.get? n = some p) (hmatches : Matches sh.index sh.stored? n p)
    (hsafe : sh.Safe n → sh.Filed n) :
    Sound t primary exempt (sh.withoutPage n p) ∧ Moves primary sh (sh.withoutPage n p) ∧
      ∀ k m, Evicted t sh k m → Evicted t (sh.withoutPage n p) k m := by
  have hsettles := h.agree.settles_evict hp
  have hpages (m : Nat) : (sh.withoutPage n p).store.pages.get? m =
      if m = n then none else sh.store.pages.get? m := SortedMap.get?_erase_eq h.pages n m
  have hagree : Agree t primary exempt sh.store.lastPage
      (sh.index.overwrite (evictedSlots n p.keys)) (sh.withoutPage n p).store.pages.get?
      sh.stored? :=
    h.agree.sendOut hsettles ⟨Nat.le_refl _, fun _ _ hle => hle⟩ (h.agree.within hp) hpages
      hmatches
  have htracks : Tracks (sh.store.pages.erase n) (sh.store.replacer.remove n) :=
    h.tracks.forgetPage h.pages n
  refine ⟨⟨rfl, h.pages.erase n, hagree, htracks, h.ordered⟩,
    ⟨⟨rfl, rfl, rfl, rfl, Nat.le_refl _, .of_directory_eq rfl, ?_⟩, rfl, ?_⟩, ?_⟩
  · intro m _ _ hm
    by_cases hmn : m = n
    · subst hmn
      exact .inr (hsafe hm)
    · refine hm.imp_left ?_
      rintro ⟨q, hq, hdirty⟩
      refine ⟨q, ?_, hdirty⟩
      rw [hpages, if_neg hmn, hq]
  · exact h.agree.contentsOf_evict hp hmatches hagree (by rw [hpages, if_pos rfl])
  · rintro k m ⟨hk, hget⟩
    refine ⟨hk, ?_⟩
    rcases hsettles.cases h.agree.ascending hk with ⟨r, hr, -, -, hold⟩ | ⟨-, hkept⟩
    · rw [hold, (h.agree.mem_pageRows hp hr).2.2] at hget
      cases hget
    · exact hkept.trans hget

/-- Taking a page out of memory. -/
theorem Sound.run_takeOut (h : Sound t primary exempt sh) {n : Nat} {p : Page}
    (hp : sh.store.pages.get? n = some p) :
    (do markEvicted n p.keys
        modifyStore fun s => s.forgetPage n
        pure true : Action Shelf Bool).run sh = (.ok true, sh.withoutPage n p) := by
  have hkeys : ∀ k ∈ p.keys, (sh.index.get? k).isSome := fun k hk => by
    obtain ⟨-, row, hrow, -⟩ := (h.agree.inMemory hp).listed k hk
    simp [hrow]
  rw [Action.run_bind_ok (run_markEvicted n h.live hkeys), Action.run_bind_ok (run_modifyStore _ _)]
  rfl

/-- How evicting ends: there is no page to evict, the one that was chosen cannot be written, or it has
left memory, after it has been written if it had changed. -/
inductive Eviction (sh : Shelf) : Bool → Shelf → Prop where
  | idle (hvictim : sh.store.replacer.victim? = none) : Eviction sh false sh
  | refused {n : Nat} {p : Page} {e : Error} {sh' : Shelf}
      (hvictim : sh.store.replacer.victim? = some n) (hp : sh.store.pages.get? n = some p)
      (hdirty : p.dirty = true) (hwrite : (Shelf.writePage p).run sh = (.error e, sh')) :
      Eviction sh false sh'
  | clean {n : Nat} {p : Page} (hvictim : sh.store.replacer.victim? = some n)
      (hp : sh.store.pages.get? n = some p) (hdirty : p.dirty = false) :
      Eviction sh true (sh.withoutPage n p)
  | written {n : Nat} {p : Page} {sh' : Shelf} (hvictim : sh.store.replacer.victim? = some n)
      (hp : sh.store.pages.get? n = some p) (hdirty : p.dirty = true)
      (hwrite : (Shelf.writePage p).run sh = (.ok (), sh')) :
      Eviction sh true (sh'.withoutPage n p)

/-- Evicting never fails. -/
theorem Sound.exists_eviction (h : Sound t primary exempt sh) :
    ∃ b sh', Shelf.evict.run sh = (.ok b, sh') ∧ Eviction sh b sh' := by
  unfold Shelf.evict
  rw [Action.run_bind_ok (run_getStore sh)]
  cases hvictim : sh.store.replacer.victim? with
  | none => exact ⟨_, _, rfl, .idle hvictim⟩
  | some n =>
    obtain ⟨p, hp, -⟩ := h.tracks.exists_of_victim? hvictim
    simp only [hp]
    cases hdirty : p.dirty with
    | false =>
      simp only [Bool.false_eq_true, if_false, pure_bind]
      exact ⟨_, _, h.run_takeOut hp, .clean hvictim hp hdirty⟩
    | true =>
      obtain ⟨r, sh', hrun, hsound, -, hstore, -⟩ := h.writePage hp
      have hattempt : (Shelf.writePage p).attempt.run sh = (.ok r, sh') := by
        rw [Action.run_attempt, hrun]
      simp only [if_true, Action.run_bind_ok hattempt]
      cases r with
      | error e => exact ⟨_, _, rfl, .refused hvictim hp hdirty hrun⟩
      | ok u =>
        exact ⟨_, _, hsound.run_takeOut (hstore ▸ hp), .written hvictim hp hdirty hrun⟩

/-- Evicting moves at most one page.  A page that cannot be written stays. -/
theorem Sound.evict (h : Sound t primary 0 sh) :
    ∃ b sh', Shelf.evict.run sh = (.ok b, sh') ∧ Sound t primary 0 sh' ∧ Moves primary sh sh' ∧
      ∀ k m, Evicted t sh k m → Evicted t sh' k m := by
  obtain ⟨b, sh', hrun, heviction⟩ := h.exists_eviction
  refine ⟨b, sh', hrun, ?_⟩
  have hkept {sh₁ : Shelf} (hstore : sh₁.store = sh.store) (k : Entry) (m : Nat)
      (hk : Evicted t sh k m) : Evicted t sh₁ k m := by
    have hindex : sh₁.index = sh.index := by rw [index, hstore, index]
    exact ⟨hk.1, by rw [hindex, hk.2]⟩
  cases heviction with
  | idle _ => exact ⟨h, .refl sh, fun _ _ hk => hk⟩
  | @refused n p e _ _ hp _ hwrite =>
    obtain ⟨r, sh₁, hrun₁, hsound, hmoves, hstore, -⟩ := h.writePage hp
    cases hwrite.symm.trans hrun₁
    exact ⟨hsound, hmoves, hkept hstore⟩
  | @clean n p _ hp hdirty =>
    have hpos := (h.agree.within hp).1
    refine h.withoutPage hp (h.agree.clean hp hdirty (by omega)) ?_
    -- the page is not safe as one that has changed
    rintro (⟨q, hq, hq'⟩ | hstored)
    · obtain rfl : p = q := Option.some.inj (hp.symm.trans hq)
      simp [hdirty] at hq'
    · exact hstored
  | @written n p sh₁ _ hp _ hwrite =>
    obtain ⟨r, sh₂, hrun₂, hsound, hmoves, hstore, -, hwritten⟩ := h.writePage hp
    cases hwrite.symm.trans hrun₂
    have hindex : sh₁.index = sh.index := by rw [index, hstore, index]
    obtain ⟨hmatches, hfiled⟩ := hwritten rfl
    rw [← hindex] at hmatches
    obtain ⟨hsound', hmoves', hkept'⟩ :=
      hsound.withoutPage (hstore ▸ hp) hmatches fun _ => hfiled
    exact ⟨hsound', hmoves.trans hmoves', fun k m hk => hkept' k m (hkept hstore k m hk)⟩

/-- Making room never fails. -/
theorem Sound.makeRoom (h : Sound t primary 0 sh) :
    ∃ sh', Shelf.makeRoom.run sh = (.ok (), sh') ∧ Sound t primary 0 sh' ∧ Moves primary sh sh' ∧
      ∀ k m, Evicted t sh k m → Evicted t sh' k m := by
  unfold Shelf.makeRoom
  rw [Action.run_bind_ok (run_getStore sh)]
  split
  · obtain ⟨b, sh', hrun, hrest⟩ := h.evict
    exact ⟨sh', by rw [Action.run_bind_ok hrun]; rfl, hrest⟩
  · exact ⟨sh, rfl, h, .refl sh, fun _ _ hk => hk⟩

/-! ## Bringing a page into memory -/

/-- A store with other slots that has the same pages in memory. -/
structure SamePages (s s' : Store) : Prop where
  database : s'.database = s.database
  table : s'.table = s.table
  budget : s'.budget = s.budget
  cap : s'.cap = s.cap
  pages : s'.pages = s.pages
  replacer : s'.replacer = s.replacer

/-- A page comes into memory with the rows of its file. -/
theorem Sound.bring (h : Sound t primary exempt sh) (exempt' : Nat) {n : Nat} {s : Store} {disk : Disk}
    {index' : Index Slot} {rows : List Row} {p : Page} (hs : SamePages sh.store s)
    (hdisk : disk.directory = sh.disk.directory) (hindex : s.index = some index')
    (hsettles : Settles t primary .resident n rows sh.index index') (hp : Holds primary n rows p)
    (hpinned : p.pinned = false) (hnone : sh.store.pages.get? n = none)
    (hlast : sh.store.lastPage ≤ s.lastPage ∧
      ∀ m, m ≠ n → m ≤ s.lastPage → m ≤ sh.store.lastPage)
    (hn : 0 < n ∧ n ≤ s.lastPage) (hexempt : ∀ m, 0 < m → m ≠ n → m ≠ exempt' → m ≠ exempt)
    (hfile : n ≠ exempt' → sh.stored? n = some rows) :
    Sound t primary exempt' ⟨s.bring n p, disk⟩ ∧ Frame sh ⟨s.bring n p, disk⟩ ∧
      index ⟨s.bring n p, disk⟩ = index' ∧ stored? ⟨s.bring n p, disk⟩ = sh.stored? := by
  have halike := Store.alike_bring s n p
  have hsindex : (s.bring n p).index = some index' := halike.index.trans hindex
  have hname (m : Nat) : (s.bring n p).fileName m = sh.store.fileName m := by
    simp only [Store.fileName, halike.database, halike.table, hs.database, hs.table]
  have hpages : s.pages.Ascending fun _ => True := hs.pages ▸ h.pages
  have htracks : Tracks s.pages s.replacer := by
    rw [hs.pages, hs.replacer]
    exact h.tracks
  have hget (m : Nat) : (s.bring n p).pages.get? m =
      if m = n then some (s.arrived n p) else sh.store.pages.get? m := by
    rw [Store.get?_bring hpages, hs.pages]
  have himage (m : Nat) : image? ⟨s.bring n p, disk⟩ m = sh.image? m :=
    image?_congr (hname m) hdisk
  have hstored : stored? ⟨s.bring n p, disk⟩ = sh.stored? :=
    funext fun m => stored?_congr (himage m)
  have hindex' : index ⟨s.bring n p, disk⟩ = index' := by simp [index, hsindex]
  refine ⟨⟨?_, Store.ascending_bring hpages n p, ?_,
    htracks.bring hpages (hs.pages ▸ hnone) hpinned, ?_⟩, ?_, hindex', hstored⟩
  · rw [hindex']
    exact hsindex
  · rw [hindex', hstored]
    refine h.agree.bringIn hsettles (p := s.arrived n p) ⟨hp.number, hp.keys, hp.size⟩
      ?_ ?_ hexempt hget hfile
    · rw [halike.lastPage]
      exact hlast
    · rw [halike.lastPage]
      exact hn
  · simpa only [hdisk] using h.ordered
  · refine ⟨halike.database.trans hs.database, halike.table.trans hs.table,
      halike.budget.trans hs.budget, halike.cap.trans hs.cap, ?_, .of_directory_eq hdisk, ?_⟩
    · rw [halike.lastPage]
      exact hlast.1
    · rintro m - - (⟨q, hq, hdirty⟩ | hfile)
      · refine .inl ⟨q, ?_, hdirty⟩
        have hm : m ≠ n := by rintro rfl; simp [hnone] at hq
        rw [hget, if_neg hm, hq]
      · exact .inr (by rwa [Filed, himage])

/-- Opening a page never fails.  The new page is in memory, and only it is exempt. -/
theorem Sound.addPage (h : Sound t primary 0 sh) :
    ∃ n sh', Shelf.addPage.run sh = (.ok n, sh') ∧ Sound t primary n sh' ∧ Frame sh sh' ∧
      sh'.rows primary = sh.rows primary ∧ n = sh'.store.lastPage ∧
      sh'.store.lastPage = sh.store.lastPage + 1 ∧ (sh'.store.pages.get? n).isSome := by
  obtain ⟨sh₁, hrun, h₁, hmoves, -⟩ := h.makeRoom
  have hnone : sh₁.store.pages.get? (sh₁.store.lastPage + 1) = none := by
    cases hp : sh₁.store.pages.get? (sh₁.store.lastPage + 1) with
    | none => rfl
    | some p =>
      have := h₁.agree.within hp
      omega
  obtain ⟨hsound, hframe, hindex, hstored⟩ := h₁.bring (sh₁.store.lastPage + 1)
    (s := { sh₁.store with lastPage := sh₁.store.lastPage + 1 })
    (p := { number := sh₁.store.lastPage + 1 }) (n := sh₁.store.lastPage + 1)
    ⟨rfl, rfl, rfl, rfl, rfl, rfl⟩ (Eq.refl sh₁.disk.directory) h₁.live
    (h₁.agree.settles_open .resident) ⟨rfl, rfl, rfl⟩ rfl hnone (by simp; omega) (by simp)
    (fun m hm _ _ => by omega) (by simp)
  rw [← Store.openPage_eq] at hsound hframe hindex hstored
  have hlast : sh₁.store.openPage.lastPage = sh₁.store.lastPage + 1 := by
    rw [Store.openPage_eq]
    exact (Store.alike_bring _ _ _).lastPage
  refine ⟨sh₁.store.openPage.lastPage, { sh₁ with store := sh₁.store.openPage }, ?_, ?_,
    hmoves.toFrame.trans hframe, ?_, rfl, ?_, ?_⟩
  · unfold Shelf.addPage
    rw [Action.run_bind_ok hrun, Action.run_bind_ok (run_modifyStore _ _)]
    rfl
  · rw [hlast]
    exact hsound
  · rw [← hmoves.rows, Shelf.rows, hindex, hstored, Shelf.rows]
  · rw [hlast, hmoves.lastPage]
  · rw [hlast, Store.openPage_eq,
      Store.get?_bring (s := { sh₁.store with lastPage := sh₁.store.lastPage + 1 }) h₁.pages,
      if_pos rfl]
    rfl

/-- A page that is not in memory is read back from its file, after room has been made for it. -/
theorem Sound.resurrect (h : Sound t primary 0 sh) {k : Entry} {n : Nat}
    (hk : Evicted t sh k n) :
    ∃ sh', (Shelf.resurrect n primary).run sh = (.ok (), sh') ∧ Sound t primary 0 sh' ∧
      Moves primary sh sh' ∧
      (∃ row, sh'.index.get? k = some (.resident row) ∧ row.position = n) ∧
      (∃ room, Shelf.makeRoom.run sh = (.ok (), room) ∧
        sh'.disk = { room.disk with reads := room.disk.reads + 1 } ∧
        sh'.store.resurrections = room.store.resurrections + 1) ∧
      ∃ p, p.pinned = false ∧ p.dirty = false ∧ ∀ m, sh'.store.pages.get? m =
        if m = n then some p else (Shelf.makeRoom.run sh).2.store.pages.get? m := by
  obtain ⟨sh₁, hrun, h₁, hmoves, hkept⟩ := h.makeRoom
  obtain ⟨hfits, hget⟩ := hkept k n hk
  obtain ⟨⟨hnone, rows, hstored, r, hr, hsame⟩, hn⟩ := h₁.agree.found hfits hget
  have honFile := h₁.agree.onFile hnone hn.1 hn.2 hstored
  have hsettles := h₁.agree.settles_reinstate hnone hn hstored
  obtain ⟨-, rfl⟩ | ⟨image, decoded, hread, hdecode, rfl⟩ := stored?_eq_some_iff.1 hstored
  · simp at hr
  have hrows : ∀ r ∈ decoded, r.Keyed t primary ∧
      (sh₁.index.get? (r.keyAt primary)).isSome := fun r hr => by
    obtain ⟨hkeyed, -, hslot⟩ := honFile.keyed (r.placedOn n) (List.mem_map_of_mem hr)
    exact ⟨hkeyed, by rw [← Row.keyAt_placedOn r n primary, hslot]; rfl⟩
  let disk : Disk := { sh₁.disk with reads := sh₁.disk.reads + 1 }
  obtain ⟨restored, hreinstate, hnumber, hkeys, hsize, -, hdirty, hpinned⟩ :=
    @run_reinstate t primary decoded { number := n } _ { sh₁ with disk := disk } h₁.live hrows
  have hholds : Holds primary n (decoded.map fun r => r.placedOn n) restored := by
    refine ⟨hnumber, by simp [hkeys, Function.comp_def], ?_⟩
    simp [hsize, rowBytes, List.foldr_map]
  let s : Store := { sh₁.store with
    index := some (sh₁.index.overwrite
      (slotsOf primary .resident (decoded.map fun r => r.placedOn n)))
    resurrections := sh₁.store.resurrections + 1 }
  obtain ⟨hsound, hframe, hindex, hstored'⟩ := h₁.bring 0 (s := s)
    ⟨rfl, rfl, rfl, rfl, rfl, rfl⟩ (show disk.directory = _ from rfl) rfl hsettles hholds hpinned hnone
    ⟨Nat.le_refl _, fun _ _ hle => hle⟩ hn (fun _ _ _ hm => hm) fun _ => hstored
  refine ⟨_, ?_, hsound, hmoves.trans ⟨hframe, ?_, ?_⟩, ?_, ?_, s.arrived n restored, hpinned, hdirty,
    fun m => ?_⟩
  · unfold Shelf.resurrect
    have honDisk : (onDisk (Disk.read (sh₁.store.fileName n))).run sh₁ =
        (.ok image, { sh₁ with disk := disk }) := by
      rw [run_onDisk, Disk.read_run hread]
    rw [Action.run_bind_ok hrun, Action.run_bind_ok (run_getStore sh₁),
      Action.run_bind_ok honDisk, hdecode, Action.run_bind_ok (Action.run_lift _ _),
      Action.run_bind_ok (@run_getIndex { sh₁ with disk := disk } _ h₁.live),
      Action.run_bind_ok hreinstate, Action.run_bind_ok (run_modifyStore _ _), run_modifyStore]
    rfl
  · exact (Store.alike_bring _ _ _).lastPage
  · have hagree := hsound.agree
    rw [hindex, hstored'] at hagree
    rw [Shelf.rows, hindex, hstored']
    exact h₁.agree.contentsOf_reinstate hnone hn hstored
      (by simpa only [(Store.alike_bring _ _ _).lastPage] using hagree)
  · rw [hindex]
    rcases hsettles.cases h₁.agree.ascending hfits with ⟨q, hq, -, hslot, -⟩ | ⟨hne, -⟩
    · exact ⟨q, hslot, (hsettles.keyed q hq).2⟩
    · simp [hne r hr] at hsame
  · exact ⟨sh₁, hrun, rfl, Store.resurrections_bring s n restored⟩
  · rw [hrun]
    exact Store.get?_bring (s := s) h₁.pages n restored m

/-! ## Finding the page of a key -/

/-- A key that is not in the index is not found, and nothing happens. -/
theorem Sound.resolve_none (h : Sound t primary exempt sh) {v : Entry}
    (hv : sh.index.getKey? v = none) :
    (Shelf.resolve v primary).run sh = (.error (.keyNotFound v), sh) := by
  have hfetch : sh.index.fetch v = .error (.keyNotFound v) := by
    simp [Index.fetch, SortedMap.getKey?_eq_none_iff.1 hv]
  unfold Shelf.resolve
  rw [Action.run_bind_ok (run_getIndex h.live), hfetch, Action.run_bind_error (Action.run_lift _ _)]

theorem Sound.get?_rows (h : Sound t primary exempt sh) {v k : Entry}
    (hv : sh.index.getKey? v = some k) {row : Row}
    (hrow : sh.index.get? v = some (.resident row)) : (sh.rows primary).get? v = some row := by
  have hP := Entry.orderedOn_fits t
  obtain ⟨hk, hget⟩ := SortedMap.get?_of_getKey? hP h.agree.ascending hv
  rw [← SortedMap.getKey?_congr (keys_rows primary sh)] at hv
  obtain ⟨-, hget'⟩ := SortedMap.get?_of_getKey? hP h.agree.ascending_contentsOf hv
  rw [Shelf.rows, hget', h.agree.get?_contentsOf hk, ← hget, hrow]
  rfl

/-- A key that is in the index is found, and its page is in memory afterwards. -/
theorem Sound.resolve (h : Sound t primary 0 sh) {v k : Entry}
    (hv : sh.index.getKey? v = some k) :
    ∃ row sh', (Shelf.resolve v primary).run sh = (.ok row.position, sh') ∧
      Sound t primary 0 sh' ∧ Moves primary sh sh' ∧ sh'.index.get? v = some (.resident row) ∧
      (sh.rows primary).get? v = some row ∧ (sh'.store.pages.get? row.position).isSome := by
  have hP := Entry.orderedOn_fits t
  obtain ⟨hk, hget⟩ := SortedMap.get?_of_getKey? hP h.agree.ascending hv
  have hslot : (sh.index.get? v).isSome := by
    rw [← Bool.not_eq_false, Option.isSome_eq_false_iff, Option.isNone_iff_eq_none,
      ← SortedMap.getKey?_eq_none_iff, hv]
    simp
  have hpage {sh' : Shelf} {row : Row} (h' : Sound t primary 0 sh')
      (hrow : sh'.index.get? k = some (.resident row)) :
      (sh'.store.pages.get? row.position).isSome := by
    obtain ⟨-, -, p, hp, -⟩ := (h'.agree.found hk hrow).1
    rw [hp]
    rfl
  unfold Shelf.resolve
  rw [Action.run_bind_ok (run_getIndex h.live)]
  obtain ⟨slot, hslot⟩ := Option.isSome_iff_exists.1 hslot
  have hfetch : sh.index.fetch v = .ok slot := by simp [Index.fetch, hslot]
  rw [hfetch, Action.run_bind_ok (Action.run_lift _ _)]
  cases slot with
  | resident row =>
    exact ⟨row, sh, rfl, h, .refl sh, hslot, h.get?_rows hv hslot, hpage h (hget ▸ hslot)⟩
  | evicted n =>
    obtain ⟨sh', hrun, h', hmoves, ⟨row, hrow, hposition⟩, -⟩ := h.resurrect ⟨hk, hget ▸ hslot⟩
    have hv' : sh'.index.getKey? v = some k := by
      rw [SortedMap.getKey?_congr hmoves.keys, hv]
    have hrow' : sh'.index.get? v = some (.resident row) := by
      rw [(SortedMap.get?_of_getKey? hP h'.agree.ascending hv').2, hrow]
    refine ⟨row, sh', ?_, h', hmoves, hrow', ?_, hpage h' hrow⟩
    · dsimp only
      rw [Action.run_bind_ok hrun, Action.run_bind_ok (run_getIndex h'.live)]
      have hfetch' : sh'.index.fetch v = .ok (.resident row) := by simp [Index.fetch, hrow']
      rw [hfetch', Action.run_bind_ok (Action.run_lift _ _)]
      rfl
    · rw [← hmoves.rows]
      exact h'.get?_rows hv' hrow'

end Moving

end Shelf

end PageDb
