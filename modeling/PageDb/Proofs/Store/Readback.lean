import PageDb.Proofs.Store.Separation
import PageDb.Proofs.Store.Representation

/-!
Reading a page back from a file that is not what was written.

The file of a page that is not in memory may have been lost, cut or replaced.  A call that needs the
page then fails.  `Intact` is what such a call should leave: it does so exactly if nothing of the
file gets into the index (`Refused`), because rows are put into their slots one by one while the next
ones are still to be looked at.
-/

namespace PageDb

variable {t : ColumnType} {primary n : Nat} {sh sh' : Shelf} {index index' : Index Slot}

/-- A call that looks for the page of a key. -/
def StoreCall.Resolves (key : Entry) : StoreCall → Prop
  | .get k => k = key
  | .delete k _ => k = key
  | .update k targets values _ => k = key ∧ targets.length = values.length
  | _ => False

namespace Shelf

/-- A call fails as the search for its page does. -/
theorem run_call_of_resolve_error {c : StoreCall} {key : Entry} {e : Error} (hc : c.Resolves key)
    (h : (resolve key primary).run sh = (.error e, sh')) :
    (call primary c).run sh = (.error e, sh') := by
  cases c with
  | get k =>
    obtain rfl : k = key := hc
    have hget : (getRow k primary).run sh = (.error e, sh') := Action.run_bind_error h
    exact Action.run_bind_error hget
  | delete k pin =>
    obtain rfl : k = key := hc
    have hdelete : (deleteRow k primary pin).run sh = (.error e, sh') := Action.run_bind_error h
    exact Action.run_bind_error hdelete
  | update k targets values pin =>
    obtain ⟨rfl, hlength⟩ := hc
    have hupdate : (updateRow k primary targets values pin).run sh = (.error e, sh') := by
      unfold updateRow
      rw [if_neg (not_not_intro hlength)]
      exact Action.run_bind_error h
    exact Action.run_bind_error hupdate
  | _ => exact hc.elim

/-! ## What a failed call should leave -/

/-- Every key is where its slot says: on a page in memory that lists it, or on a page that is not in
memory. -/
structure Placed (sh : Shelf) : Prop where
  resident : ∀ key row, (key, .resident row) ∈ sh.index.toList →
    ∃ p, sh.store.pages.get? row.position = some p ∧ p.lists key = true
  evicted : ∀ key m, (key, .evicted m) ∈ sh.index.toList → sh.store.pages.get? m = none

/-- The keys are the same and on the same pages, every row that was in memory is there still or in
the file of its page, and at most the page visited the longest ago has left memory. -/
structure Intact (sh sh' : Shelf) : Prop where
  keys : sh'.index.keys = sh.index.keys
  page : ∀ key, (sh'.index.get? key).map Slot.page = (sh.index.get? key).map Slot.page
  row : ∀ key row, sh.index.get? key = some (.resident row) →
    sh'.index.get? key = some (.resident row) ∨
      sh'.index.get? key = some (.evicted row.position) ∧
        ∃ rows, sh'.stored? row.position = some rows ∧ row ∈ rows
  placed : sh'.Placed
  pages : ∀ m, sh'.store.pages.get? m = sh.store.pages.get? m ∨
    sh.store.replacer.victim? = some m ∧ sh'.store.pages.get? m = none

/-- The first of some rows has no key, or one that is not in the index. -/
def FirstUnknown (primary : Nat) (index : Index Slot) (rows : List Row) : Prop :=
  ∃ r rest, rows = r :: rest ∧ ∀ key, r.entries[primary]? = some key → index.get? key = none

/-- The contents of a page file of which no row gets into the index: there is no file, it is no
image, or its first row has no key or an unknown one. -/
inductive Refused (primary : Nat) (index : Index Slot) : Option Bytes → Prop
  | missing : Refused primary index none
  | foreign {image : Bytes} {e : Error} (h : PageImage.decode image = .error e) :
      Refused primary index (some image)
  | unknown {image : Bytes} {rows : List Row} (h : PageImage.decode image = .ok rows)
      (hfirst : FirstUnknown primary index rows) : Refused primary index (some image)

/-! ## Making room -/

/-- Only the page visited the longest ago may be evicted. -/
theorem Sound.pages_evict (h : Sound t primary 0 sh) (m : Nat) :
    (Shelf.evict.run sh).2.store.pages.get? m = sh.store.pages.get? m ∨
      sh.store.replacer.victim? = some m ∧ (Shelf.evict.run sh).2.store.pages.get? m = none := by
  have hleft {sh₁ : Shelf} {n : Nat} {p : Page} (h₁ : Sound t primary 0 sh₁)
      (hvictim : sh.store.replacer.victim? = some n) (hpages : sh₁.store.pages = sh.store.pages) :
      (sh₁.withoutPage n p).store.pages.get? m = sh.store.pages.get? m ∨
        some n = some m ∧ (sh₁.withoutPage n p).store.pages.get? m = none := by
    have hget : (sh₁.withoutPage n p).store.pages.get? m =
        if m = n then none else sh₁.store.pages.get? m := SortedMap.get?_erase_eq h₁.pages n m
    by_cases hm : m = n
    · exact .inr ⟨by rw [hm], by rw [hget, if_pos hm]⟩
    · exact .inl (by rw [hget, if_neg hm, hpages])
  obtain ⟨b, sh', hrun, heviction⟩ := h.exists_eviction
  rw [hrun]
  cases heviction with
  | idle _ => exact .inl rfl
  | refused _ hp _ hwrite =>
    obtain ⟨r, sh₁, hrun₁, -, -, hstore, -⟩ := h.writePage hp
    cases hwrite.symm.trans hrun₁
    exact .inl (by rw [← hstore])
  | clean hvictim _ _ =>
    rw [hvictim]
    exact hleft h hvictim rfl
  | written hvictim hp _ hwrite =>
    obtain ⟨r, sh₁, hrun₁, h₁, -, hstore, -⟩ := h.writePage hp
    cases hwrite.symm.trans hrun₁
    rw [hvictim]
    exact hleft h₁ hvictim (by rw [hstore])

theorem Sound.pages_makeRoom (h : Sound t primary 0 sh) (m : Nat) :
    (Shelf.makeRoom.run sh).2.store.pages.get? m = sh.store.pages.get? m ∨
      sh.store.replacer.victim? = some m ∧ (Shelf.makeRoom.run sh).2.store.pages.get? m = none := by
  unfold Shelf.makeRoom
  rw [Action.run_bind_ok (run_getStore sh)]
  split
  · rw [Action.run_bind_pure]
    exact h.pages_evict m
  · exact .inl rfl

/-- A key has one slot under all its spellings, before and after pages have moved. -/
theorem Sound.get?_index (h : Sound t primary 0 sh) (h' : Sound t primary 0 sh')
    (hkeys : sh'.index.keys = sh.index.keys) (key : Entry) :
    sh.index.get? key = none ∧ sh'.index.get? key = none ∨
      ∃ k, k.fits t ∧ sh.index.get? key = sh.index.get? k ∧
        sh'.index.get? key = sh'.index.get? k := by
  have hP := Entry.orderedOn_fits t
  cases hk : sh.index.getKey? key with
  | none =>
    have hk' : sh'.index.getKey? key = none := by rw [SortedMap.getKey?_congr hkeys, hk]
    exact .inl ⟨SortedMap.getKey?_eq_none_iff.1 hk, SortedMap.getKey?_eq_none_iff.1 hk'⟩
  | some k =>
    have hk' : sh'.index.getKey? key = some k := by rw [SortedMap.getKey?_congr hkeys, hk]
    obtain ⟨hfits, hget⟩ := SortedMap.get?_of_getKey? hP h.agree.ascending hk
    exact .inr ⟨k, hfits, hget, (SortedMap.get?_of_getKey? hP h'.agree.ascending hk').2⟩

/-- Where a row in memory is after pages have moved. -/
theorem Moves.get?_of_resident (hmoves : Moves primary sh sh') (h : Sound t primary 0 sh)
    (h' : Sound t primary 0 sh') {k : Entry} (hk : k.fits t) {row : Row}
    (hrow : sh.index.get? k = some (.resident row)) :
    sh'.index.get? k = some (.resident row) ∨
      sh'.index.get? k = some (.evicted row.position) ∧
        ∃ rows, sh'.stored? row.position = some rows ∧ row ∈ rows := by
  have hcontents : (sh'.rows primary).get? k = some row := by
    rw [hmoves.rows, Shelf.rows, h.agree.get?_contentsOf hk, hrow]
    rfl
  rw [Shelf.rows, h'.agree.get?_contentsOf hk] at hcontents
  obtain ⟨slot, hslot, hslotRow⟩ := Option.map_eq_some_iff.1 hcontents
  cases slot with
  | resident row' =>
    obtain rfl : row' = row := hslotRow
    exact .inl hslot
  | evicted m =>
    obtain ⟨⟨hnone, rows, hstored, r, hr, hsame⟩, hpos, hle⟩ := h'.agree.found hk hslot
    have honFile := h'.agree.onFile hnone hpos hle hstored
    obtain rfl : r = row := (honFile.row_eq hstored hr hk hsame).symm.trans hslotRow
    obtain rfl : r.position = m := (honFile.keyed r hr).2.1
    exact .inr ⟨hslot, rows, hstored, hr⟩

/-- Every key stays on its page when pages move. -/
theorem Moves.page_eq (hmoves : Moves primary sh sh') (h : Sound t primary 0 sh)
    (h' : Sound t primary 0 sh') (hkept : ∀ k m, Evicted t sh k m → Evicted t sh' k m) {k : Entry}
    (hk : k.fits t) : (sh'.index.get? k).map Slot.page = (sh.index.get? k).map Slot.page := by
  cases hslot : sh.index.get? k with
  | none =>
    have hsome := SortedMap.isSome_get?_congr hmoves.keys k
    rw [hslot, Option.isSome_none, Option.isSome_eq_false_iff, Option.isNone_iff_eq_none] at hsome
    rw [hsome]
  | some slot =>
    cases slot with
    | evicted m => rw [(hkept k m ⟨hk, hslot⟩).2]
    | resident row =>
      obtain hrow | ⟨hevicted, -⟩ := hmoves.get?_of_resident h h' hk hslot
      · rw [hrow]
      · rw [hevicted]
        rfl

theorem Sound.placed (h : Sound t primary 0 sh) : sh.Placed where
  resident key row hmem := by
    obtain ⟨-, -, ⟨-, -, p, hp, hlists⟩, -⟩ := h.found hmem
    exact ⟨p, hp, hlists⟩
  evicted key m hmem := by
    obtain ⟨-, -, ⟨hnone, -⟩, -⟩ := h.found hmem
    exact hnone

/-- Making room leaves a shelf that keeps its invariant intact. -/
theorem Sound.intact_makeRoom (h : Sound t primary 0 sh) :
    ∃ sh', Shelf.makeRoom.run sh = (.ok (), sh') ∧ Sound t primary 0 sh' ∧ Intact sh sh' := by
  obtain ⟨sh', hrun, h', hmoves, hkept⟩ := h.makeRoom
  have hpages := h.pages_makeRoom
  rw [hrun] at hpages
  refine ⟨sh', hrun, h', hmoves.keys, fun key => ?_, fun key row hrow => ?_, h'.placed, hpages⟩
  · obtain ⟨hnone, hnone'⟩ | ⟨k, hk, hget, hget'⟩ := h.get?_index h' hmoves.keys key
    · rw [hnone, hnone']
    · rw [hget, hget']
      exact hmoves.page_eq h h' hkept hk
  · obtain ⟨hnone, -⟩ | ⟨k, hk, hget, hget'⟩ := h.get?_index h' hmoves.keys key
    · rw [hnone] at hrow
      cases hrow
    · rw [hget']
      exact hmoves.get?_of_resident h h' hk (hget.symm.trans hrow)

/-- The file of a page that is not in memory does not matter. -/
theorem Intact.congr {room : Shelf} (h : Intact sh sh') (hplaced : sh.Placed)
    (hn : sh.store.pages.get? n = none) (hstore : room.store = sh'.store)
    (hstored : ∀ m, m ≠ n → room.stored? m = sh'.stored? m) : Intact sh room := by
  have hindex : room.index = sh'.index := by rw [index, hstore, index]
  constructor
  case keys => rw [hindex]; exact h.keys
  case page => rw [hindex]; exact h.page
  case row =>
    intro key row hrow
    obtain ⟨spelled, hspelled⟩ := SortedMap.exists_mem_of_get? hrow
    obtain ⟨p, hp, -⟩ := hplaced.resident spelled row hspelled
    have hposition : row.position ≠ n := by
      rintro rfl
      rw [hn] at hp
      cases hp
    rw [hindex, hstored _ hposition]
    exact h.row key row hrow
  case placed =>
    constructor
    · rw [hindex, hstore]
      exact h.placed.resident
    · rw [hindex, hstore]
      exact h.placed.evicted
  case pages => rw [hstore]; exact h.pages

/-- Making room while the file of a page that is not in memory holds anything, or is gone. -/
theorem Sound.makeRoom_spoiled (h : Sound t primary 0 sh) (hn : sh.store.pages.get? n = none)
    {contents : Option Bytes} {disk : Disk}
    (hdisk : Directory.Differ (sh.store.fileName n) (sh.image? n) contents sh.disk.directory
      disk.directory) :
    ∃ room, Shelf.makeRoom.run { sh with disk := disk } = (.ok (), room) ∧
      room.image? n = contents ∧ Intact { sh with disk := disk } room ∧
      ∃ other, Sound t primary 0 { room with disk := other } := by
  -- the same shelf with its own files, on a disk that refuses the same writes
  obtain ⟨h₀, -⟩ := @Sound.withDisk _ _ _ _ h { sh.disk with outages := disk.outages } h.ordered
    fun _ => rfl
  have haway : ∀ p ∈ sh.store.pages.values, p.number ≠ n := by
    intro p hp heq
    obtain ⟨b, hb, rfl⟩ := List.mem_map.1 hp
    have hget := (SortedMap.mem_toList_iff h.pages).1 hb
    rw [← (h.agree.inMemory hget).number, heq, hn] at hget
    cases hget
  have hdiffer : Differ n (sh.store.fileName n) (sh.image? n) contents
      { sh with disk := { sh.disk with outages := disk.outages } } { sh with disk := disk } :=
    ⟨rfl, rfl, haway, hdisk, rfl⟩
  obtain ⟨sh₁, hrun, h₁, hintact⟩ := h₀.intact_makeRoom
  obtain ⟨hanswer, hafter⟩ := respects_makeRoom _ _ hdiffer
  rcases hroom : Shelf.makeRoom.run { sh with disk := disk } with ⟨r, room⟩
  rw [hrun] at hanswer hafter
  rw [hroom] at hanswer hafter
  obtain rfl : .ok () = r := hanswer
  have hname (m : Nat) : room.store.fileName m = sh₁.store.fileName m := by rw [hafter.store]
  have hstored (m : Nat) (hm : m ≠ n) : room.stored? m = sh₁.stored? m := by
    refine stored?_congr ?_
    rw [image?, hname]
    exact hafter.disk.directory.others _ fun heq =>
      hm (PageFile.name_injective _ _ (heq.trans hafter.named.symm))
  have hroomIntact := hintact.congr h₀.placed hn hafter.store hstored
  refine ⟨room, rfl, ?_, ⟨hroomIntact.keys, hroomIntact.page, hroomIntact.row, hroomIntact.placed,
    hroomIntact.pages⟩, sh₁.disk, ?_⟩
  · rw [image?, hname, hafter.named]
    exact hafter.disk.directory.right
  · have hsame : ({ room with disk := sh₁.disk } : Shelf) = sh₁ := by rw [hafter.store]
    rw [hsame]
    exact h₁

/-! ## Putting rows into their slots -/

/-- A row whose slot says that it is on a page in memory. -/
def Laid (n : Nat) (index : Index Slot) : Prop :=
  ∃ key row, (key, .resident row) ∈ index.toList ∧ row.position = n

/-- A change of the index that at most puts rows of one page into slots. -/
structure Overlays (n : Nat) (index index' : Index Slot) : Prop where
  keys : index'.keys = index.keys
  evicted : ∀ key m, (key, .evicted m) ∈ index'.toList → (key, .evicted m) ∈ index.toList
  laid : Laid n index → Laid n index'

theorem Overlays.refl (n : Nat) (index : Index Slot) : Overlays n index index :=
  ⟨rfl, fun _ _ h => h, id⟩

theorem Overlays.trans {index'' : Index Slot} (h : Overlays n index index')
    (h' : Overlays n index' index'') : Overlays n index index'' :=
  ⟨h'.keys.trans h.keys, fun k m hm => h.evicted k m (h'.evicted k m hm),
    fun hl => h'.laid (h.laid hl)⟩

theorem overlays_modify {key : Entry} {old : Slot} (h : index.get? key = some old) (row : Row) :
    Overlays row.position index (index.modify key fun _ => .resident row) ∧
      Laid row.position (index.modify key fun _ => .resident row) := by
  have hlaid : Laid row.position (index.modify key fun _ => .resident row) := by
    obtain ⟨k, hk⟩ := SortedMap.exists_mem_modify h fun _ => Slot.resident row
    exact ⟨k, row, hk, rfl⟩
  refine ⟨⟨index.keys_modify key _, fun k m hmem => ?_, fun _ => hlaid⟩, hlaid⟩
  obtain hold | ⟨-, -, hnew, -⟩ := SortedMap.mem_modifyIn hmem
  · exact hold
  · cases hnew

/-- A key that still has no row in memory has the slot that it had. -/
theorem Overlays.evicted_of_missing {m : Nat} (h : Overlays n index index')
    (hascending : index.Ascending (Entry.fits t)) {key : Entry}
    (hpage : (index.get? key).map Slot.page = some m)
    (hmissing : ∀ row, index'.get? key ≠ some (.resident row)) :
    index'.get? key = some (.evicted m) := by
  obtain ⟨before, hbefore, hm⟩ := Option.map_eq_some_iff.1 hpage
  obtain ⟨after, hafter⟩ : ∃ after, index'.get? key = some after := by
    rw [← Option.isSome_iff_exists, SortedMap.isSome_get?_congr h.keys, hbefore]
    rfl
  cases after with
  | resident row => exact absurd hafter (hmissing row)
  | evicted j =>
    -- both slots are bound to the same spelling of the key
    obtain ⟨⟨spelled, slot⟩, hfind, rfl⟩ := Option.map_eq_some_iff.1 hbefore
    obtain ⟨⟨spelled', slot'⟩, hfind', rfl⟩ := Option.map_eq_some_iff.1 hafter
    have hspelled : spelled' = spelled := by
      simpa [SortedMap.getKey?, hfind, hfind'] using SortedMap.getKey?_congr h.keys key
    have hold := h.evicted spelled' j (SortedMap.mem_of_find? hfind').1
    have hP := Entry.orderedOn_fits t
    have heq := (SortedMap.get?_of_mem hP hascending (hspelled ▸ hold)).symm.trans
      (SortedMap.get?_of_mem hP hascending (SortedMap.mem_of_find? hfind).1)
    obtain rfl : .evicted j = slot := Option.some.inj heq
    rw [hafter, ← hm]
    rfl

/-- A row without a key, or with an unknown one, ends the reading. -/
theorem run_reinstate_refused (sh : Shelf) (page : Page) (hlive : sh.store.index = some index) {r : Row}
    (hkey : ∀ key, r.entries[primary]? = some key → index.get? key = none) (rest : List Row) :
    ∃ e, (reinstate primary page (r :: rest)).run sh = (.error e, sh) := by
  unfold reinstate
  dsimp only
  cases hr : r.entries[primary]? with
  | none =>
    have hnone : (r.placedOn page.number).key primary =
        .error (.schemaMismatch (.noKeyColumn r.entries.length primary)) := by simp [Row.key, hr]
    exact ⟨_, by rw [hnone, Action.run_bind_error (Action.run_lift _ _)]⟩
  | some key =>
    have hsome : (r.placedOn page.number).key primary = .ok key := by simp [Row.key, hr]
    have hexchange (slot : Slot) : index.exchange key slot = .error (.keyNotFound key) := by
      simp [Index.exchange, hkey key hr]
    refine ⟨.keyNotFound key, ?_⟩
    rw [hsome, Action.run_bind_ok (Action.run_lift _ _), Action.run_bind_ok (run_getIndex hlive),
      hexchange, Action.run_bind_error (Action.run_lift _ _)]

/-- A row with a known key is put into its slot before the next row is looked at. -/
theorem run_reinstate_known (page : Page) (hlive : sh.store.index = some index) {r : Row}
    {key : Entry} {old : Slot} (hkey : r.entries[primary]? = some key)
    (hold : index.get? key = some old) (rest : List Row) :
    (reinstate primary page (r :: rest)).run sh =
      (reinstate primary (page.add key r.byteSize) rest).run
        (sh.withIndex (index.modify key fun _ => .resident (r.placedOn page.number))) := by
  have hsome : (r.placedOn page.number).key primary = .ok key := by simp [Row.key, hkey]
  have hexchange (slot : Slot) : index.exchange key slot =
      .ok (old, index.modify key fun _ => slot) := by simp [Index.exchange, hold]
  rw [reinstate, hsome, Action.run_bind_ok (Action.run_lift _ _),
    Action.run_bind_ok (run_getIndex hlive), hexchange, Action.run_bind_ok (Action.run_lift _ _),
    Action.run_bind_ok (run_setIndex _ _)]
  rfl

/-- Rows of any file are put into their slots until one of them is refused.  Unless that is the
first one, some row has been put into its slot by then. -/
theorem run_reinstate_any (sh : Shelf) (primary : Nat) (rows : List Row) (page : Page)
    (hlive : sh.store.index = some index) (hfirst : ¬ FirstUnknown primary index rows) :
    ∃ r index', (reinstate primary page rows).run sh = (r, sh.withIndex index') ∧
      Overlays page.number index index' ∧ (∀ e, r = .error e → Laid page.number index') := by
  induction rows generalizing page index sh with
  | nil =>
    refine ⟨.ok page, index, ?_, .refl _ _, by simp⟩
    rw [withIndex_self hlive]
    rfl
  | cons r rest ih =>
    obtain ⟨key, old, hkey, hold⟩ : ∃ key old, r.entries[primary]? = some key ∧
        index.get? key = some old := by
      refine Classical.not_not.1 fun hunknown => hfirst ⟨r, rest, rfl, fun key hkey => ?_⟩
      exact Option.eq_none_iff_forall_ne_some.2 fun old hold => hunknown ⟨key, old, hkey, hold⟩
    obtain ⟨hover, hlaid⟩ := overlays_modify hold (r.placedOn page.number)
    have hstep := run_reinstate_known page hlive hkey hold rest
    by_cases hnext : FirstUnknown primary
        (index.modify key fun _ => .resident (r.placedOn page.number)) rest
    case pos =>
      obtain ⟨s, more, rfl, hunknown⟩ := hnext
      obtain ⟨e, hrun⟩ := run_reinstate_refused
        (sh.withIndex (index.modify key fun _ => .resident (r.placedOn page.number)))
        (page.add key r.byteSize) rfl hunknown more
      exact ⟨.error e, _, hstep.trans hrun, hover, fun _ _ => hlaid⟩
    case neg =>
      obtain ⟨result, index', hrun, hrest, -⟩ := @ih _
        (sh.withIndex (index.modify key fun _ => .resident (r.placedOn page.number)))
        (page.add key r.byteSize) rfl hnext
      exact ⟨result, index', hstep.trans hrun, hover.trans hrest, fun _ _ => hrest.laid hlaid⟩

/-! ## Reading back -/

/-- The shelf after a file has been read. -/
def afterRead (sh : Shelf) : Shelf :=
  { sh with disk := { sh.disk with reads := sh.disk.reads + 1 } }

/-- The shelf with a page that has been read back. -/
def withRestored (sh : Shelf) (n : Nat) (restored : Page) : Shelf :=
  let s : Store := { sh.store with resurrections := sh.store.resurrections + 1 }
  { sh with store := s.bring n restored }

theorem isSome_get?_withRestored (h : sh.store.pages.Ascending fun _ => True) (n : Nat)
    (p : Page) : ((sh.withRestored n p).store.pages.get? n).isSome := by
  have hget := Store.get?_bring
    (s := { sh.store with resurrections := sh.store.resurrections + 1 }) h n p n
  rw [withRestored, hget, if_pos rfl]
  rfl

/-- A page that is read back comes into memory after all of its rows have been put into their
slots. -/
theorem run_resurrect {room : Shelf} (hroom : makeRoom.run sh = (.ok (), room))
    (hlive : room.store.index = some room.index) (n primary : Nat) :
    (resurrect n primary).run sh =
      match room.image? n with
      | none => (.error .io, room)
      | some image =>
        match PageImage.decode image with
        | .error e => (.error e, room.afterRead)
        | .ok rows =>
          match (reinstate primary { number := n } rows).run room.afterRead with
          | (.error e, sh') => (.error e, sh')
          | (.ok restored, sh') => (.ok (), sh'.withRestored n restored) := by
  unfold resurrect
  rw [Action.run_bind_ok hroom, Action.run_bind_ok (run_getStore room)]
  cases himage : room.image? n with
  | none =>
    have hread : (onDisk (Disk.read (room.store.fileName n))).run room = (.error .io, room) := by
      have hnone : room.disk.directory.read? (room.store.fileName n) = none := himage
      rw [run_onDisk, Disk.read, Action.run_bind_ok (Action.run_get _), hnone]
      rfl
    rw [Action.run_bind_error hread]
  | some image =>
    have hread : (onDisk (Disk.read (room.store.fileName n))).run room =
        (.ok image, room.afterRead) := by
      rw [run_onDisk, Disk.read_run himage]
      rfl
    rw [Action.run_bind_ok hread]
    dsimp only
    cases hdecode : PageImage.decode image with
    | error e => rw [Action.run_bind_error (Action.run_lift _ _)]
    | ok rows =>
      rw [Action.run_bind_ok (Action.run_lift _ _),
        Action.run_bind_ok (@run_getIndex room.afterRead _ hlive), Action.run_bind]
      dsimp only
      rcases (reinstate primary { number := n } rows).run room.afterRead with ⟨_ | restored, sh'⟩
      · rfl
      · rfl

section Resolving

variable {key : Entry} {e : Error}

/-- A search fails as the reading of the page does. -/
theorem run_resolve_error (hlive : sh.store.index = some sh.index)
    (hslot : sh.index.get? key = some (.evicted n))
    (hrun : (resurrect n primary).run sh = (.error e, sh')) :
    (resolve key primary).run sh = (.error e, sh') := by
  have hfetch : sh.index.fetch key = .ok (.evicted n) := by simp [Index.fetch, hslot]
  rw [resolve, Action.run_bind_ok (run_getIndex hlive), hfetch,
    Action.run_bind_ok (Action.run_lift _ _)]
  exact Action.run_bind_error hrun

/-- After the page has been read back a search fails only where it has found nothing, and it changes
nothing. -/
theorem resolve_eq_error (h : (resolve key primary).run sh = (.error e, sh')) {restored : Shelf}
    (hlive : sh.store.index = some sh.index) (hslot : sh.index.get? key = some (.evicted n))
    (hrun : (resurrect n primary).run sh = (.ok (), restored))
    (hrestored : restored.store.index = some index) :
    sh' = restored ∧ ∀ row, index.get? key ≠ some (.resident row) := by
  have hfetch : sh.index.fetch key = .ok (.evicted n) := by simp [Index.fetch, hslot]
  rw [resolve, Action.run_bind_ok (run_getIndex hlive), hfetch,
    Action.run_bind_ok (Action.run_lift _ _)] at h
  dsimp only at h
  rw [Action.run_bind_ok hrun, Action.run_bind_ok (run_getIndex hrestored)] at h
  cases hget : index.get? key with
  | none =>
    have hfetch' : index.fetch key = .error (.keyNotFound key) := by simp [Index.fetch, hget]
    rw [hfetch', Action.run_bind_error (Action.run_lift _ _)] at h
    exact ⟨(congrArg Prod.snd h).symm, by simp⟩
  | some slot =>
    have hfetch' : index.fetch key = .ok slot := by simp [Index.fetch, hget]
    rw [hfetch', Action.run_bind_ok (Action.run_lift _ _)] at h
    cases slot with
    | resident row => cases h
    | evicted m => exact ⟨(congrArg Prod.snd h).symm, by simp⟩

end Resolving

/-! ## What a failed call leaves -/

theorem firstUnknown_congr (hkeys : index'.keys = index.keys) {rows : List Row} :
    FirstUnknown primary index' rows ↔ FirstUnknown primary index rows := by
  have hget (key : Entry) : index'.get? key = none ↔ index.get? key = none := by
    rw [← Option.not_isSome_iff_eq_none, ← Option.not_isSome_iff_eq_none,
      SortedMap.isSome_get?_congr hkeys]
  simp only [FirstUnknown, hget]

theorem not_refused {image : Bytes} {rows : List Row} (h : PageImage.decode image = .ok rows)
    (hfirst : ¬ FirstUnknown primary index rows) : ¬ Refused primary index (some image) := by
  rintro (_ | h' | ⟨h', hunknown⟩)
  · rw [h] at h'
    cases h'
  · rw [h] at h'
    cases h'
    exact hfirst hunknown

/-- A row that is on a page in memory as its slot says, while the page is not there. -/
theorem not_placed_of_laid (hlaid : Laid n sh.index) (hn : sh.store.pages.get? n = none) :
    ¬ sh.Placed := by
  rintro ⟨hresident, -⟩
  obtain ⟨key, row, hmem, rfl⟩ := hlaid
  obtain ⟨p, hp, -⟩ := hresident key row hmem
  rw [hn] at hp
  cases hp

/-- A page in memory, some key of which is said to be on a page that is not. -/
theorem not_placed_of_evicted (hn : (sh.store.pages.get? n).isSome)
    (hlive : sh.store.index = some index) {key : Entry}
    (hslot : index.get? key = some (.evicted n)) : ¬ sh.Placed := by
  rintro ⟨-, hevicted⟩
  obtain ⟨spelled, hmem⟩ := SortedMap.exists_mem_of_get? hslot
  have hindex : sh.index = index := by simp [Shelf.index, hlive]
  rw [hevicted spelled n (hindex ▸ hmem)] at hn
  cases hn

theorem Intact.afterRead (h : Intact sh sh') : Intact sh sh'.afterRead :=
  ⟨h.keys, h.page, h.row, ⟨h.placed.resident, h.placed.evicted⟩, h.pages⟩

end Shelf

open PageDb.Shelf

/-- Whatever is in the file of a page that is not in memory: a call that fails because the page
cannot be read back leaves the store intact if and only if nothing of the file got into the
index. -/
theorem intact_iff_refused (h : Reachable t primary sh) {key : Entry}
    (hslot : sh.index.get? key = some (.evicted n)) {contents : Option Bytes} {disk : Disk}
    (hdisk : Directory.Differ (sh.store.fileName n) (sh.image? n) contents sh.disk.directory
      disk.directory) {c : StoreCall} (hc : c.Resolves key) {e : Error}
    (hrun : (resolve key primary).run { sh with disk := disk } = (.error e, sh')) :
    (call primary c).run { sh with disk := disk } = (.error e, sh') ∧
      (Intact { sh with disk := disk } sh' ↔ Refused primary sh.index contents) := by
  refine ⟨run_call_of_resolve_error hc hrun, ?_⟩
  have hsound := h.sound
  obtain ⟨spelled, hspelled⟩ := SortedMap.exists_mem_of_get? hslot
  have hn := hsound.placed.evicted spelled n hspelled
  obtain ⟨room, hroom, hcontents, hintact, other, hother⟩ := hsound.makeRoom_spoiled hn hdisk
  have hlive : room.store.index = some room.index := hother.live
  have hroomNone : room.store.pages.get? n = none := (hintact.pages n).elim (·.trans hn) (·.2)
  have hsteps := run_resurrect hroom hlive n primary
  rw [hcontents] at hsteps
  have hends {e' : Error} {last : Shelf}
      (hlast : (resurrect n primary).run { sh with disk := disk } = (.error e', last)) :
      sh' = last :=
    congrArg Prod.snd (hrun.symm.trans (run_resolve_error hsound.live hslot hlast))
  cases contents with
  | none =>
    obtain rfl := hends hsteps
    exact ⟨fun _ => .missing, fun _ => hintact⟩
  | some image =>
    cases hdecode : PageImage.decode image with
    | error e' =>
      simp only [hdecode] at hsteps
      obtain rfl := hends hsteps
      exact ⟨fun _ => .foreign hdecode, fun _ => hintact.afterRead⟩
    | ok rows =>
      simp only [hdecode] at hsteps
      by_cases hfirst : FirstUnknown primary sh.index rows
      case pos =>
        obtain ⟨r, rest, rfl, hunknown⟩ := (firstUnknown_congr hintact.keys).2 hfirst
        obtain ⟨e', hreinstate⟩ :=
          run_reinstate_refused room.afterRead { number := n } hlive hunknown rest
        rw [hreinstate] at hsteps
        obtain rfl := hends hsteps
        exact ⟨fun _ => .unknown hdecode hfirst, fun _ => hintact.afterRead⟩
      case neg =>
        refine iff_of_false (fun hleft => ?_) (not_refused hdecode hfirst)
        refine absurd hleft.placed ?_
        obtain ⟨result, index', hreinstate, hover, hlaid⟩ :=
          run_reinstate_any room.afterRead primary rows { number := n } hlive
            fun hunknown => hfirst ((firstUnknown_congr hintact.keys).1 hunknown)
        rw [hreinstate] at hsteps
        cases result with
        | error e' =>
          obtain rfl := hends hsteps
          exact not_placed_of_laid (hlaid e' rfl) hroomNone
        | ok restored =>
          have hrestored : ((room.afterRead.withIndex index').withRestored n restored).store.index =
              some index' := (Store.alike_bring _ n restored).index
          obtain ⟨rfl, hmissing⟩ := resolve_eq_error hrun hsound.live hslot hsteps hrestored
          have hpage : (room.index.get? key).map Slot.page = some n :=
            (hintact.page key).trans (congrArg (Option.map Slot.page) hslot)
          have hpages : (room.afterRead.withIndex index').store.pages.Ascending fun _ => True :=
            hother.pages
          exact not_placed_of_evicted (isSome_get?_withRestored hpages n restored) hrestored
            (hover.evicted_of_missing hother.agree.ascending hpage hmissing)

/-- Two rows on pages of their own, of which one page may be in memory. -/
def twoPages : Shelf :=
  Shelf.after 0 [.insert [.int 1] false, .insert [.int 2] false]
    ⟨({ budget := 1, cap := 1 } : Config).newStore "shop" "items", {}⟩

theorem reachable_twoPages : Reachable .int 0 twoPages :=
  .after (.new _ _ _ Directory.ordered_empty) (by simp [StoreCall.Typed, Entry.fits, Entry.type?])

/-- The two pages after the file of the first one, which is not in memory, has been lost. -/
def lostPage : Shelf :=
  { twoPages with disk := { twoPages.disk with directory :=
    (twoPages.disk.directory.remove? (twoPages.store.fileName 1)).getD {} } }

/-- The image of a page with the rows 1 and 99. -/
def foreignRows : Bytes :=
  [0x53, 0x50, 0x47, 0x31, 1, 0, 2, 0, 0, 0,
    1, 0, 0, 0, 1, 0, 1, 1, 0, 0, 0, 1, 0, 0, 0, 1, 0, 1, 99, 0, 0, 0]

/-- The two pages after the file of the first one has been replaced. -/
def swappedPage : Shelf :=
  { twoPages with disk := { twoPages.disk with directory :=
    (twoPages.disk.directory.write? (twoPages.store.fileName 1) foreignRows).getD {} } }

theorem intact_of_lostPage :
    ∃ e sh', (Shelf.call 0 (.get (.int 1))).run lostPage = (.error e, sh') ∧
      lostPage.Intact sh' := by
  have hslot : twoPages.index.get? (.int 1) = some (.evicted 1) := by decide +kernel
  have hfails : ((resolve (.int 1) 0).run lostPage).1.isOk = false := by decide +kernel
  have hremoved : (twoPages.disk.directory.remove? (twoPages.store.fileName 1)).isSome := by
    decide +kernel
  obtain ⟨cleared, hcleared⟩ := Option.isSome_iff_exists.1 hremoved
  have hdisk : Directory.Differ (twoPages.store.fileName 1) (twoPages.image? 1) none
      twoPages.disk.directory lostPage.disk.directory := by
    simp only [lostPage, hcleared, Option.getD_some]
    exact Directory.differ_of_remove? reachable_twoPages.sound.ordered hcleared
  rcases hrun : (resolve (.int 1) 0).run lostPage with ⟨e | page, sh'⟩
  · obtain ⟨hcall, hintact⟩ :=
      intact_iff_refused reachable_twoPages hslot hdisk (c := .get (.int 1)) rfl hrun
    exact ⟨e, sh', hcall, hintact.2 .missing⟩
  · rw [hrun] at hfails
    cases hfails

/-- The row 1 is put into its slot, then the row 99 is refused: the first row is said to be on a page
in memory that is not there. -/
theorem not_intact_of_swappedPage :
    Reachable .int 0 twoPages ∧ swappedPage.store = twoPages.store ∧
      Directory.Differ (twoPages.store.fileName 1) (twoPages.image? 1) (some foreignRows)
        twoPages.disk.directory swappedPage.disk.directory ∧
      let outcome := (Shelf.call 0 (.get (.int 1))).run swappedPage
      outcome.1.isOk = false ∧
        outcome.2.index.get? (.int 1) = some (.resident ⟨[.int 1], 1⟩) ∧
        outcome.2.store.pages.get? 1 = none ∧ ¬ swappedPage.Intact outcome.2 := by
  have hwritten : (twoPages.disk.directory.write? (twoPages.store.fileName 1) foreignRows).isSome :=
    by decide +kernel
  obtain ⟨written, hwritten⟩ := Option.isSome_iff_exists.1 hwritten
  refine ⟨reachable_twoPages, rfl, ?_, ?_⟩
  · simp only [swappedPage, hwritten, Option.getD_some]
    exact Directory.differ_of_write? reachable_twoPages.sound.ordered hwritten
  intro outcome
  have hslot : outcome.2.index.get? (.int 1) = some (.resident ⟨[.int 1], 1⟩) := by decide +kernel
  have hpage : outcome.2.store.pages.get? 1 = none := by decide +kernel
  refine ⟨by decide +kernel, hslot, hpage, fun hintact => ?_⟩
  obtain ⟨spelled, hmem⟩ := SortedMap.exists_mem_of_get? hslot
  exact not_placed_of_laid ⟨spelled, _, hmem, rfl⟩ hpage hintact.placed

end PageDb
