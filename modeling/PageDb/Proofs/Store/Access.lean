import PageDb.Proofs.Store.Assigning
import PageDb.Proofs.Store.Pages
import PageDb.Proofs.Store.Stamps
import PageDb.Proofs.Store.Touching

/-!
What it takes to get at one row.

A call on a row looks for the page of the row first, and this is the only step that reads or writes
a file or moves a page: `Shelf.Still` says that nothing of the kind happens afterwards.  If the page
is not in memory it is read back, and one other page may have to make room for it: `Shelf.Fetches`.
Where the rows are follows from which pages are in memory (`Shelf.Sound.mem_index_iff`), so slots on
all other pages are as they were.
-/

namespace PageDb

/-- The key of the row that a call is on. -/
def StoreCall.rowKey? : StoreCall → Option Entry
  | .get key => some key
  | .delete key _ => some key
  | .update key _ _ _ => some key
  | _ => none

namespace Store

/-- Whether a page is in memory. -/
def Resident (s : Store) (n : Nat) : Prop := (s.pages.get? n).isSome

instance (s : Store) (n : Nat) : Decidable (s.Resident n) :=
  inferInstanceAs (Decidable ((s.pages.get? n).isSome = true))

/-- Of the pages in memory that are not pinned, the one whose last visit was the first. -/
def LeastRecent (s : Store) (n : Nat) : Prop :=
  ∃ p, s.pages.get? n = some p ∧ p.pinned = false ∧
    ∀ m q, m ≠ n → s.pages.get? m = some q → q.pinned = false → p.lastVisit < q.lastVisit

end Store

variable {t : ColumnType} {primary n : Nat} {sh sh' : Shelf} {key : Entry} {slot : Slot}

/-- The page that is chosen for eviction was visited before all others that are not pinned. -/
theorem Reachable.leastRecent (h : Reachable t primary sh)
    (hvictim : sh.store.replacer.victim? = some n) : sh.store.LeastRecent n := by
  have hseen := h.sound.tracks.seen
  obtain ⟨v, hv, hevictable, hleast⟩ := h.stamped.victim? hvictim
  rw [hseen] at hv
  obtain ⟨p, hp, rfl⟩ := Option.map_eq_some_iff.1 hv
  refine ⟨p, hp, by simpa [Page.seen] using hevictable, fun m q hm hq hpinned => ?_⟩
  have hq' : sh.store.replacer.visits.get? m = some q.seen := by rw [hseen, hq, Option.map_some]
  exact hleast m q.seen hm hq' (by simp [Page.seen, hpinned])

namespace Shelf

open PageDb.Action (Keeps)

/-! ## What may happen to pages and files -/

/-- No file is read or written, and no page comes into memory or leaves it. -/
structure Still (sh sh' : Shelf) : Prop where
  disk : sh'.disk = sh.disk
  resurrections : sh'.store.resurrections = sh.store.resurrections
  resident : ∀ m, sh'.store.Resident m ↔ sh.store.Resident m

/-- The page `n` is read back from its file.  Only the page `out` may have left memory for it, and
only the file of that page may have been written. -/
structure Fetches (n : Nat) (out : Option Nat) (sh sh' : Shelf) : Prop where
  reads : sh'.disk.reads = sh.disk.reads + 1
  resurrections : sh'.store.resurrections = sh.store.resurrections + 1
  writes : sh'.disk.writes ≤ sh.disk.writes + out.toList.length
  files : ∀ f, (∀ v ∈ out, ¬ Disk.Touched (sh.store.fileName v) f) →
    sh'.disk.directory.read? f = sh.disk.directory.read? f
  arrived : sh'.store.Resident n
  others : ∀ m, m ≠ n → m ∉ out → (sh'.store.Resident m ↔ sh.store.Resident m)

/-- Every row on a page has its slot in memory. -/
def AllResident (sh : Shelf) (n : Nat) : Prop :=
  ∀ key slot, (key, slot) ∈ sh.index.toList → slot.page = n → ∃ row, slot = .resident row

/-- Slots on all but some pages are the same. -/
def KeepsSlots (pages : List Nat) (sh sh' : Shelf) : Prop :=
  ∀ key slot, slot.page ∉ pages → ((key, slot) ∈ sh'.index.toList ↔ (key, slot) ∈ sh.index.toList)

theorem Fetches.still {out : Option Nat} {sh₁ : Shelf} (h : Fetches n out sh sh₁)
    (hstill : Still sh₁ sh') : Fetches n out sh sh' where
  reads := by rw [hstill.disk, h.reads]
  resurrections := by rw [hstill.resurrections, h.resurrections]
  writes := by rw [hstill.disk]; exact h.writes
  files f hf := by rw [hstill.disk]; exact h.files f hf
  arrived := (hstill.resident n).2 h.arrived
  others m hm hout := (hstill.resident m).trans (h.others m hm hout)

/-! ## Making room -/

/-- Only the page `out` may have left memory, and only its file may have been written. -/
structure Yields (out : Option Nat) (sh room : Shelf) : Prop where
  reads : room.disk.reads = sh.disk.reads
  resurrections : room.store.resurrections = sh.store.resurrections
  writes : room.disk.writes ≤ sh.disk.writes + out.toList.length
  files : ∀ f, (∀ v ∈ out, ¬ Disk.Touched (sh.store.fileName v) f) →
    room.disk.directory.read? f = sh.disk.directory.read? f
  pages : ∀ m, m ∉ out → room.store.pages.get? m = sh.store.pages.get? m

theorem Yields.refl (out : Option Nat) (sh : Shelf) : Yields out sh sh :=
  ⟨rfl, rfl, Nat.le_add_right _ _, fun _ _ => rfl, fun _ _ => rfl⟩

/-- A page in memory is written. -/
theorem Sound.yields_writePage (h : Sound t primary 0 sh) {p : Page}
    (hp : sh.store.pages.get? n = some p) :
    Yields (some n) sh ((Shelf.writePage p).run sh).2 := by
  rw [h.run_writePage hp]
  cases PageImage.encode (Store.pageRows sh.index p) with
  | error e => exact .refl _ sh
  | ok image =>
    obtain ⟨hreads, hwrites⟩ := Disk.counts_write sh.disk (sh.store.fileName n) image
    obtain ⟨r, disk, hwrite, -, hchanges, -⟩ :=
      Disk.write_run h.ordered (sh.store.fileName n) (PageFile.name_ne_temporary _ _ n _) image
    simp only [hwrite] at hreads hwrites ⊢
    exact ⟨hreads, rfl, hwrites, fun f hf => hchanges.others f (hf n rfl), fun _ _ => rfl⟩

/-- A page leaves memory. -/
theorem Yields.withoutPage {sh₁ : Shelf} (h : Yields (some n) sh sh₁)
    (hpages : sh₁.store.pages.Ascending fun _ => True) (p : Page) :
    Yields (some n) sh (sh₁.withoutPage n p) where
  reads := h.reads
  resurrections := h.resurrections
  writes := h.writes
  files := h.files
  pages m hm := by
    have hne : m ≠ n := fun heq => hm (by rw [heq]; rfl)
    rw [← h.pages m hm]
    exact (SortedMap.get?_erase_eq hpages n m).trans (if_neg hne)

/-- Evicting works on the page that is chosen for it. -/
theorem Sound.yields_evict (h : Sound t primary 0 sh) :
    Yields sh.store.replacer.victim? sh (Shelf.evict.run sh).2 := by
  obtain ⟨b, sh', hrun, heviction⟩ := h.exists_eviction
  rw [hrun]
  cases heviction with
  | idle _ => exact .refl _ sh
  | refused hvictim hp _ hwrite =>
    have hyields := h.yields_writePage hp
    rwa [hwrite, ← hvictim] at hyields
  | @clean n p hvictim _ _ =>
    rw [hvictim]
    exact (Yields.refl _ sh).withoutPage h.pages p
  | @written n p sh₁ hvictim hp _ hwrite =>
    have hyields := h.yields_writePage hp
    obtain ⟨r, sh₂, hrun₂, h₂, -⟩ := h.writePage hp
    cases hwrite.symm.trans hrun₂
    rw [hwrite] at hyields
    rw [hvictim]
    exact hyields.withoutPage h₂.pages p

/-- The page that may have to make room for another one. -/
def leaver? (sh : Shelf) : Option Nat :=
  if sh.store.cap ≤ sh.store.residentCount then sh.store.replacer.victim? else none

theorem mem_leaver?_iff : n ∈ sh.leaver? ↔
    sh.store.cap ≤ sh.store.residentCount ∧ sh.store.replacer.victim? = some n := by
  unfold leaver?
  split
  · rename_i hfull
    exact ⟨fun hvictim => ⟨hfull, hvictim⟩, fun hboth => hboth.2⟩
  · rename_i hroom
    exact ⟨nofun, fun hboth => absurd hboth.1 hroom⟩

theorem Sound.yields_makeRoom (h : Sound t primary 0 sh) :
    Yields sh.leaver? sh (Shelf.makeRoom.run sh).2 := by
  unfold Shelf.makeRoom leaver? Store.residentCount
  rw [Action.run_bind_ok (run_getStore sh)]
  split
  · rw [Action.run_bind_pure]
    exact h.yields_evict
  · exact .refl _ sh

/-! ## Looking for the page of a row -/

/-- Reading a page back. -/
theorem Sound.fetches_resurrect (h : Sound t primary 0 sh) {k : Entry} (hk : Evicted t sh k n)
    (hrun : (Shelf.resurrect n primary).run sh = (.ok (), sh')) :
    Fetches n sh.leaver? sh sh' ∧ sh'.store.pages.Ascending fun _ => True := by
  obtain ⟨sh₁, hrun₁, h₁, -, -, ⟨room, hroom, hdisk, hresurrections⟩, p, -, -, hpages⟩ :=
    h.resurrect hk
  cases hrun.symm.trans hrun₁
  have hyields := h.yields_makeRoom
  rw [hroom] at hyields hpages
  refine ⟨⟨?_, ?_, ?_, fun f hf => ?_, ?_, fun m hm hout => ?_⟩, h₁.pages⟩
  · rw [hdisk, hyields.reads]
  · rw [hresurrections, hyields.resurrections]
  · rw [hdisk]
    exact hyields.writes
  · rw [hdisk]
    exact hyields.files f hf
  · rw [Store.Resident, hpages, if_pos rfl]
    rfl
  · rw [Store.Resident, hpages, if_neg hm, hyields.pages m hout, Store.Resident]

/-- The page of a row in memory is found without further ado. -/
theorem Sound.resolve_resident (h : Sound t primary 0 sh) {row : Row} {page : Nat}
    (hslot : sh.index.get? key = some (.resident row))
    (hrun : (Shelf.resolve key primary).run sh = (.ok page, sh')) : sh' = sh := by
  have hfetch : sh.index.fetch key = .ok (.resident row) := by simp [Index.fetch, hslot]
  unfold Shelf.resolve at hrun
  rw [Action.run_bind_ok (run_getIndex h.live), hfetch,
    Action.run_bind_ok (Action.run_lift _ _)] at hrun
  cases hrun
  rfl

/-- The page of any other row is read back. -/
theorem Sound.resolve_evicted (h : Sound t primary 0 sh) {page : Nat}
    (hslot : sh.index.get? key = some (.evicted n))
    (hrun : (Shelf.resolve key primary).run sh = (.ok page, sh')) :
    (Shelf.resurrect n primary).run sh = (.ok (), sh') := by
  have hfetch : sh.index.fetch key = .ok (.evicted n) := by simp [Index.fetch, hslot]
  unfold Shelf.resolve at hrun
  rw [Action.run_bind_ok (run_getIndex h.live), hfetch,
    Action.run_bind_ok (Action.run_lift _ _)] at hrun
  obtain ⟨_, sh₁, hresurrect, hrest⟩ := Action.exists_of_run_bind hrun
  obtain ⟨index, sh₂, hindex, hrest⟩ := Action.exists_of_run_bind hrest
  obtain ⟨found, -, hrest⟩ := Action.exists_of_run_lift_bind hrest
  have hread : getIndex.run sh₁ = (sh₁.store.liveIndex, sh₁) := rfl
  obtain rfl : sh₁ = sh₂ := congrArg Prod.snd (hread.symm.trans hindex)
  cases found with
  | evicted _ => cases hrest
  | resident row =>
    cases hrest
    exact hresurrect

/-! ## After the page has been found -/

/-- What all steps after that keep: nothing has happened to pages and files, and the numbers of the
pages in memory ascend. -/
def Lasts (sh sh' : Shelf) : Prop := Still sh sh' ∧ sh'.store.pages.Ascending fun _ => True

section Lasting

variable {α : Type} {f : Store → Store}

theorem keeps_lasts_getStore : Keeps (Lasts sh) getStore fun _ => True :=
  .bind (.get fun _ _ => trivial) fun _ _ => .pure trivial

theorem keeps_lasts_lift (r : Result α) : Keeps (Lasts sh) (liftM r : Action Shelf α) fun _ => True :=
  .lift fun _ _ => trivial

theorem keeps_lasts_getIndex : Keeps (Lasts sh) getIndex fun _ => True :=
  .bind keeps_lasts_getStore fun _ _ => keeps_lasts_lift _

theorem keeps_lasts_modifyStore
    (hf : ∀ s : Store, (s.pages.Ascending fun _ => True) → (f s).resurrections = s.resurrections ∧
      ((f s).pages.Ascending fun _ => True) ∧
      ∀ m, ((f s).pages.get? m).isSome = (s.pages.get? m).isSome) :
    Keeps (Lasts sh) (modifyStore f) fun _ => True := by
  refine .of_run fun s ⟨hstill, hpages⟩ => ⟨_, _, run_modifyStore f s, ?_, fun _ _ => trivial⟩
  obtain ⟨hresurrections, hpages', hresident⟩ := hf s.store hpages
  refine ⟨⟨hstill.disk, hresurrections.trans hstill.resurrections, fun m => ?_⟩, hpages'⟩
  rw [← hstill.resident m, Store.Resident, Store.Resident, hresident]

theorem keeps_lasts_setIndex (index : Index Slot) :
    Keeps (Lasts sh) (setIndex index) fun _ => True :=
  keeps_lasts_modifyStore fun _ hpages => ⟨rfl, hpages, fun _ => rfl⟩

theorem keeps_lasts_visit (n : Nat) (pin : Bool) :
    Keeps (Lasts sh) (modifyStore fun s => s.visit n pin) fun _ => True :=
  keeps_lasts_modifyStore fun s hpages =>
    ⟨s.resurrections_visit n pin, s.ascending_visit hpages n pin, s.isSome_get?_visit hpages n pin⟩

theorem keeps_lasts_changePage (n : Nat) (f : Page → Page) :
    Keeps (Lasts sh) (changePage n f) fun _ => True := by
  rintro s ⟨hstill, hpages⟩
  refine ⟨?_, fun _ _ => trivial⟩
  cases hp : s.store.pages.get? n with
  | none =>
    simp only [changePage, Action.run_bind_ok (run_getStore s), hp]
    exact ⟨hstill, hpages⟩
  | some p =>
    rw [run_changePage hp]
    refine ⟨⟨hstill.disk, hstill.resurrections, fun m => ?_⟩,
      hpages.insert SortedMap.orderedOn_all trivial _⟩
    rw [← hstill.resident m, Store.Resident, SortedMap.get?_insert_eq hpages]
    split
    · rename_i hm
      rw [Store.Resident, hm, hp]
      exact Iff.rfl
    · exact Iff.rfl

/-- A call that looks for a page first, and lets things last afterwards. -/
theorem exists_resolve_of_bind {f : Nat → Action Shelf α} {a : α}
    (hf : ∀ found page, Keeps (Lasts found) (f page) fun _ => True)
    (hrun : (resolve key primary >>= f).run sh = (.ok a, sh')) :
    ∃ page found, (resolve key primary).run sh = (.ok page, found) ∧
      ((found.store.pages.Ascending fun _ => True) → Still found sh') := by
  obtain ⟨page, found, hresolve, hrest⟩ := Action.exists_of_run_bind hrun
  refine ⟨page, found, hresolve, fun hpages => ?_⟩
  have hlasts := (hf found page found ⟨⟨rfl, rfl, fun _ => Iff.rfl⟩, hpages⟩).1
  rw [hrest] at hlasts
  exact hlasts.1

/-- All calls on a row do. -/
theorem exists_resolve {c : StoreCall} {answer : StoreAnswer} (hkey : c.rowKey? = some key)
    (hrun : (call primary c).run sh = (.ok answer, sh')) :
    ∃ page found, (resolve key primary).run sh = (.ok page, found) ∧
      ((found.store.pages.Ascending fun _ => True) → Still found sh') := by
  cases c with
  | get k =>
    obtain rfl := Option.some.inj hkey
    obtain ⟨row, s, hget, hpure⟩ := Action.exists_of_run_bind hrun
    cases hpure
    refine exists_resolve_of_bind (fun found page => ?_) hget
    refine .bind keeps_lasts_getIndex fun _ _ => .bind (keeps_lasts_lift _) fun slot _ => ?_
    cases slot with
    | evicted _ => exact .throw _
    | resident row => exact .bind (keeps_lasts_visit page false) fun _ _ => .pure trivial
  | delete k pin =>
    obtain rfl := Option.some.inj hkey
    obtain ⟨_, s, hdelete, hpure⟩ := Action.exists_of_run_bind hrun
    cases hpure
    refine exists_resolve_of_bind (fun found page => ?_) hdelete
    exact .bind keeps_lasts_getIndex fun _ _ => .bind (keeps_lasts_lift _) fun _ _ =>
      .bind (keeps_lasts_setIndex _) fun _ _ => .bind (keeps_lasts_changePage page _) fun _ _ =>
        keeps_lasts_visit page pin
  | update k targets values pin =>
    obtain rfl := Option.some.inj hkey
    obtain ⟨_, s, hupdate, hpure⟩ := Action.exists_of_run_bind hrun
    cases hpure
    unfold updateRow at hupdate
    split at hupdate
    · cases hupdate
    refine exists_resolve_of_bind (fun found page => ?_) hupdate
    refine .bind keeps_lasts_getIndex fun _ _ => .bind (keeps_lasts_lift _) fun newKey _ =>
      .bind (keeps_lasts_lift _) fun slot _ => ?_
    cases slot with
    | evicted _ => exact .throw _
    | resident row =>
      dsimp only
      split
      · exact .throw _
      refine .bind (keeps_lasts_setIndex _) fun _ _ => ?_
      refine .bind keeps_lasts_getStore fun _ _ => .throwIf ?_
      cases newKey with
      | none => exact .bind (keeps_lasts_changePage page _) fun _ _ => keeps_lasts_visit page pin
      | some new =>
        exact .bind keeps_lasts_getIndex fun _ _ => .bind (keeps_lasts_lift _) fun _ _ =>
          .bind (keeps_lasts_setIndex _) fun _ _ => .bind (keeps_lasts_lift _) fun _ _ =>
            .bind (keeps_lasts_setIndex _) fun _ _ => .bind (keeps_lasts_changePage page _) fun _ _ =>
              keeps_lasts_visit page pin
  | _ => cases hkey

end Lasting

/-! ## Slots -/

/-- A slot is in memory exactly if its page is. -/
theorem Sound.resident_iff (h : Sound t primary 0 sh) (hfits : key.fits t)
    (hslot : sh.index.get? key = some slot) :
    sh.store.Resident slot.page ↔ ∃ row, slot = .resident row := by
  have hfound := (h.agree.found hfits hslot).1
  cases slot with
  | resident row =>
    obtain ⟨-, -, p, hp, -⟩ := hfound
    have hresident : sh.store.Resident row.position := by rw [Store.Resident, hp]; rfl
    exact iff_of_true hresident ⟨row, rfl⟩
  | evicted m =>
    have hnone : ¬ sh.store.Resident m := by rw [Store.Resident, hfound.1]; nofun
    exact iff_of_false hnone nofun

/-- Where a row is: with its page in memory, or in the file of its page. -/
def slotOf (sh : Shelf) (row : Row) : Slot :=
  if sh.store.Resident row.position then .resident row else .evicted row.position

@[simp] theorem page_slotOf (sh : Shelf) (row : Row) : (sh.slotOf row).page = row.position := by
  unfold slotOf
  split <;> rfl

/-- The bindings of the index are those of the rows, with where they are. -/
theorem Sound.mem_index_iff (h : Sound t primary 0 sh) {k : Entry} :
    (k, slot) ∈ sh.index.toList ↔
      ∃ row, (k, row) ∈ (sh.rows primary).toList ∧ sh.slotOf row = slot := by
  have hslot {slot : Slot} (hmem : (k, slot) ∈ sh.index.toList) :
      sh.slotOf (slot.row primary sh.stored? k) = slot := by
    obtain ⟨hfits, hget, -⟩ := h.found hmem
    have hresident := h.resident_iff hfits hget
    rw [slotOf, h.agree.position_row hmem]
    cases slot with
    | resident row => exact if_pos (hresident.2 ⟨row, rfl⟩)
    | evicted m => exact if_neg fun hm => nomatch hresident.1 hm
  constructor
  · exact fun hmem => ⟨_, List.mem_map.2 ⟨_, hmem, rfl⟩, hslot hmem⟩
  · rintro ⟨row, hrow, rfl⟩
    obtain ⟨⟨k', slot⟩, hmem, heq⟩ := List.mem_map.1 hrow
    obtain ⟨rfl, rfl⟩ := Prod.mk.inj heq
    rwa [hslot hmem]

/-- Slots change only with the rows of their page or with the page. -/
theorem Sound.keepsSlots (h : Sound t primary 0 sh) (h' : Sound t primary 0 sh') {pages : List Nat}
    (hrows : ∀ m ∈ changedPages (sh.rows primary) (sh'.rows primary), m ∈ pages)
    (hresident : ∀ m, m ∉ pages → (sh'.store.Resident m ↔ sh.store.Resident m)) :
    KeepsSlots pages sh sh' := by
  intro k slot hslot
  have hsame {row : Row} (hrow : row.position = slot.page) :
      ((k, row) ∈ (sh'.rows primary).toList ↔ (k, row) ∈ (sh.rows primary).toList) ∧
        sh'.slotOf row = sh.slotOf row := by
    rw [← hrow] at hslot
    refine ⟨mem_iff_of_not_mem_changedPages fun hpage => hslot (hrows _ hpage), ?_⟩
    unfold slotOf
    simp only [hresident _ hslot]
  rw [h.mem_index_iff, h'.mem_index_iff]
  constructor
  · rintro ⟨row, hrow, rfl⟩
    obtain ⟨hmem, heq⟩ := hsame (page_slotOf sh' row).symm
    exact ⟨row, hmem.1 hrow, heq.symm⟩
  · rintro ⟨row, hrow, rfl⟩
    obtain ⟨hmem, heq⟩ := hsame (page_slotOf sh row).symm
    exact ⟨row, hmem.2 hrow, heq⟩

/-- A call on a row changes rows on the page of this row only. -/
theorem Sound.eq_of_mem_changedPages_call (h : Sound t primary 0 sh) {c : StoreCall}
    (hc : c.Typed t primary) (hkey : c.rowKey? = some key) {row : Row}
    (hrow : (sh.rows primary).get? key = some row) {answer : StoreAnswer}
    (hrun : (Shelf.call primary c).run sh = (.ok answer, sh')) {page : Nat}
    (hpage : page ∈ changedPages (sh.rows primary) (sh'.rows primary)) : row.position = page := by
  cases c with
  | get k =>
    obtain rfl := Option.some.inj hkey
    obtain ⟨sh₁, hget, -, hmoves⟩ := h.getRow hrow
    cases hrun.symm.trans (Action.run_bind_ok hget)
    rw [hmoves.rows] at hpage
    exact absurd hpage (not_mem_changedPages_self page)
  | delete k pin =>
    obtain rfl := Option.some.inj hkey
    obtain ⟨sh₁, hdelete, -, -, -, hrows, -⟩ := h.deleteRow hc hrow pin
    cases hrun.symm.trans (Action.run_bind_ok hdelete)
    rw [hrows] at hpage
    exact eq_of_mem_changedPages_erase hrow hpage
  | update k targets values pin =>
    obtain rfl := Option.some.inj hkey
    obtain ⟨hfits, hdistinct, hvalues⟩ := hc
    rcases h.updateRow_cases k targets values pin with ⟨e, sh₁, hfailed, -⟩ |
      ⟨row', newKey, hlength, hrow', hassigned, hcolumns⟩
    · cases hrun.symm.trans (Action.run_bind_error hfailed)
    obtain rfl : row = row' := Option.some.inj (hrow.symm.trans hrow')
    have hstraight : ¬ Returns k primary (targets.zip values) := by
      apply not_returns_of_nodup
      rwa [List.map_fst_zip (Nat.le_of_eq hlength)]
    obtain ⟨changed, hchanged⟩ : ∃ changed : Row,
      changed = { row with entries := assign row.entries (targets.zip values) } := ⟨_, rfl⟩
    have hkeyed := keyed_assign (h.agree.keyed_of_get?_contentsOf hfits hrow).1 hvalues hchanged
    obtain ⟨sh₁, hupdate, -, hrows, hfree⟩ :=
      h.updateRow_straight hfits hrow hlength hvalues hstraight hassigned hcolumns hchanged pin
    cases hrun.symm.trans (Action.run_bind_ok hupdate)
    rw [hrows] at hpage
    exact h.eq_of_mem_changedPages_changedRows hfits hrow (by rw [hchanged]) hkeyed.fits
      (hfree.imp_right SortedMap.contains_eq_false_iff.1) hpage
  | _ => cases hkey

end Shelf

open PageDb.Shelf

theorem StoreCall.fits_rowKey? {c : StoreCall} (hc : c.Typed t primary)
    (hkey : c.rowKey? = some key) : key.fits t := by
  cases c with
  | get k => exact Option.some.inj hkey ▸ hc
  | delete k pin => exact Option.some.inj hkey ▸ hc
  | update k targets values pin => exact Option.some.inj hkey ▸ hc.1
  | _ => cases hkey

/-- In every reachable state, a call on a row that succeeds touches no file and moves no page if the
page of the row is in memory.  Otherwise it reads that page back, and at most the page visited the
longest ago is written and leaves memory, if there was no room.  All slots on other pages are as they
were. -/
theorem still_or_fetches (h : Reachable t primary sh) {c : StoreCall} (hc : c.Typed t primary)
    (hkey : c.rowKey? = some key) (hslot : sh.index.get? key = some slot) {answer : StoreAnswer}
    (hrun : (Shelf.call primary c).run sh = (.ok answer, sh')) :
    (sh.store.Resident slot.page → Still sh sh' ∧ KeepsSlots [slot.page] sh sh') ∧
      (¬ sh.store.Resident slot.page → ∃ out : Option Nat,
        (∀ v ∈ out, sh.store.cap ≤ sh.store.residentCount ∧ sh.store.LeastRecent v) ∧
        Fetches slot.page out sh sh' ∧ sh'.AllResident slot.page ∧
        KeepsSlots (slot.page :: out.toList) sh sh') := by
  have hsound := h.sound
  have hfits := c.fits_rowKey? hc hkey
  have hafter : Sound t primary 0 sh' := by
    obtain ⟨r, sh₁, hrun₁, hsound₁, -⟩ := hsound.call hc
    cases hrun.symm.trans hrun₁
    exact hsound₁
  have hrow : (sh.rows primary).get? key = some (slot.row primary sh.stored? key) := by
    rw [Shelf.rows, hsound.agree.get?_contentsOf hfits, hslot]
    rfl
  have hchanged {m : Nat} (hm : m ∈ changedPages (sh.rows primary) (sh'.rows primary)) :
      m = slot.page := by
    rw [← hsound.eq_of_mem_changedPages_call hc hkey hrow hrun hm]
    exact hsound.agree.position_of_slot hfits hslot
  have hresident := hsound.resident_iff hfits hslot
  obtain ⟨page, found, hresolve, hstill⟩ := exists_resolve hkey hrun
  constructor
  · intro hin
    obtain ⟨row, rfl⟩ := hresident.1 hin
    obtain rfl := hsound.resolve_resident hslot hresolve
    have hstill := hstill hsound.pages
    refine ⟨hstill, hsound.keepsSlots hafter (fun m hm => ?_) fun m _ => hstill.resident m⟩
    exact List.mem_singleton.2 (hchanged hm)
  · intro hout
    cases slot with
    | resident row => exact absurd (hresident.2 ⟨row, rfl⟩) hout
    | evicted n =>
      have hresurrect := hsound.resolve_evicted hslot hresolve
      obtain ⟨hfound, hpages⟩ := hsound.fetches_resurrect ⟨hfits, hslot⟩ hresurrect
      have hfetches := hfound.still (hstill hpages)
      refine ⟨sh.leaver?, fun v hv => ?_, hfetches, fun k slot hmem hpage => ?_,
        hsound.keepsSlots hafter (fun m hm => ?_) fun m hm => ?_⟩
      · obtain ⟨hfull, hvictim⟩ := mem_leaver?_iff.1 hv
        exact ⟨hfull, h.leastRecent hvictim⟩
      · obtain ⟨hfits', hget, -⟩ := hafter.found hmem
        exact (hafter.resident_iff hfits' hget).1 (hpage ▸ hfetches.arrived)
      · exact hchanged hm ▸ List.mem_cons_self
      · exact hfetches.others m (List.ne_of_not_mem_cons hm) fun hv =>
          List.not_mem_of_not_mem_cons hm (Option.mem_toList.2 hv)

/-- The first of the two pages takes the place of the second one, the only one in memory; while that is
there, deleting its row needs no file. -/
theorem still_or_fetches_of_twoPages :
    (∃ out : Option Nat, (∀ v ∈ out, twoPages.store.cap ≤ twoPages.store.residentCount ∧
        twoPages.store.LeastRecent v) ∧
      Fetches 1 out twoPages ((Shelf.call 0 (.get (.int 1))).run twoPages).2 ∧
      ((Shelf.call 0 (.get (.int 1))).run twoPages).2.AllResident 1 ∧
      KeepsSlots (1 :: out.toList) twoPages ((Shelf.call 0 (.get (.int 1))).run twoPages).2) ∧
    Still twoPages ((Shelf.call 0 (.delete (.int 2) true)).run twoPages).2 := by
  have succeeds {r : Result StoreAnswer × Shelf} (hr : r.1.isOk = true) :
      ∃ answer, r = (.ok answer, r.2) := by
    rcases r with ⟨e | answer, sh'⟩
    · cases hr
    · exact ⟨answer, rfl⟩
  have hfirst : twoPages.index.get? (.int 1) = some (.evicted 1) := by decide +kernel
  have hsecond : twoPages.index.get? (.int 2) = some (.resident ⟨[.int 2], 2⟩) := by decide +kernel
  obtain ⟨_, hget⟩ := @succeeds ((Shelf.call 0 (.get (.int 1))).run twoPages) (by decide +kernel)
  obtain ⟨_, hdelete⟩ := @succeeds ((Shelf.call 0 (.delete (.int 2) true)).run twoPages)
    (by decide +kernel)
  have hread := still_or_fetches reachable_twoPages (c := .get (.int 1)) (.inr rfl) rfl hfirst hget
  have hremove :=
    still_or_fetches reachable_twoPages (c := .delete (.int 2) true) (.inr rfl) rfl hsecond hdelete
  exact ⟨hread.2 (by decide +kernel), (hremove.1 (by decide +kernel)).1⟩

end PageDb
