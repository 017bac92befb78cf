import PageDb.Proofs.Action
import PageDb.Proofs.Store.Plain

/-!
Invariants of shelves, and the operations that keep them.

`Shelf.Invariant` is an invariant with what it says of the parts of a shelf and what it lets in: the
entries that rows may have, the pages that may be out of memory, and whether a page may be pinned.
Its rules come in groups, each for the operations that rest on it: `Evicts` for writing and evicting
pages, `Reads` for reading them back, `Changes` for adding, removing and changing rows, `Loads` for
loading pages of an earlier run.  The operations are walked through here, once for all invariants;
whether they fail or not the invariant holds afterwards.
-/

namespace PageDb

namespace Shelf

open PageDb.Action (Keeps)

/-- An invariant of shelves, what it says of the store, the disk and the index, and what it lets in. -/
structure Invariant where
  holds : Shelf → Prop
  store : Store → Prop
  disk : Disk → Prop := fun _ => True
  index : Index Slot → Prop := fun _ => True
  /-- The entries of rows. -/
  entries : List Entry → Prop := fun _ => True
  /-- The pages that may be out of memory. -/
  away : Nat → Prop := fun _ => True
  /-- Whether a page may be pinned. -/
  mayPin : Prop := True

namespace Invariant

/-- The slots that may be in the index. -/
def slot (I : Invariant) : Slot → Prop
  | .resident row => I.entries row.entries
  | .evicted n => I.away n

/-- The parts of a shelf may be exchanged, and pages may be written and evicted. -/
structure Evicts (I : Invariant) : Prop where
  store : ∀ {sh : Shelf}, I.holds sh → I.store sh.store
  withStore : ∀ {sh : Shelf} {s : Store}, I.holds sh → I.store s → I.holds { sh with store := s }
  disk : ∀ {sh : Shelf}, I.holds sh → I.disk sh.disk
  withDisk : ∀ {sh : Shelf} {d : Disk}, I.holds sh → I.disk d → I.holds { sh with disk := d }
  live : ∀ {s : Store} {index : Index Slot}, I.store s → s.index = some index → I.index index
  withIndex : ∀ {s : Store} {index : Index Slot}, I.store s → I.index index →
    I.store { s with index := some index }
  exchange : ∀ {index index' : Index Slot} {key : Entry} {slot old : Slot}, I.index index →
    I.slot slot → index.exchange key slot = .ok (old, index') → I.index index'
  written : ∀ {s : Store} {index : Index Slot} {page : Page} {image : Bytes}, I.store s →
    I.index index → PageImage.encode (Store.pageRows index page) = .ok image →
    Keeps I.disk (Disk.write (s.fileName page.number) image) fun _ => True
  victim : ∀ {s : Store} {n : Nat}, I.store s → s.replacer.victim? = some n → I.away n
  unvisited : ∀ {s : Store} {n : Nat}, I.store s → I.away n →
    I.store { s with replacer := s.replacer.remove n }
  forgotten : ∀ {s : Store} {n : Nat}, I.store s → I.away n → I.store (s.forgetPage n)
  cleaned : ∀ {s : Store}, I.store s →
    I.store { s with pages := s.pages.mapValues fun p => { p with dirty := false } }

/-- Pages may be read back and visited as well. -/
structure Reads (I : Invariant) : Prop extends Evicts I where
  fetch : ∀ {index : Index Slot} {key : Entry} {slot : Slot}, I.index index →
    index.fetch key = .ok slot → I.slot slot
  read : ∀ {s : Store}, I.store s → ∀ n, Keeps I.disk (Disk.read (s.fileName n)) fun image =>
    ∀ rows, PageImage.decode image = .ok rows → ∀ r ∈ rows, I.entries r.entries
  brought : ∀ {s : Store} {n : Nat} {p : Page}, I.store s → I.away n → p.number = n →
    p.pinned = false → ∀ resurrections,
      I.store { s with pages := s.pages.insert n p, resurrections := resurrections }
  visited : ∀ {s : Store} {pin : Bool}, I.store s → (pin = true → I.mayPin) → ∀ n,
    I.store (s.visit n pin)

/-- Rows may be added, removed and changed as well. -/
structure Changes (I : Invariant) : Prop extends Reads I where
  put : ∀ {index index' : Index Slot} {key : Entry} {slot : Slot}, I.index index → I.slot slot →
    index.put key slot = .ok index' → I.index index'
  take : ∀ {index index' : Index Slot} {key : Entry} {slot : Slot}, I.index index →
    index.take key = .ok (slot, index') → I.index index' ∧ I.slot slot
  modify : ∀ {index : Index Slot} {slot : Slot}, I.index index → I.slot slot → ∀ key,
    I.index (index.modify key fun _ => slot)
  opened : ∀ {s : Store}, I.store s → I.store s.openPage
  changed : ∀ {s : Store} {n : Nat} {p p' : Page}, I.store s → s.pages.get? n = some p →
    p'.number = p.number → p'.pinned = p.pinned → I.store { s with pages := s.pages.insert n p' }

/-- Pages of an earlier run may be loaded as well, as in memory or not, and all pages unpinned. -/
structure Loads (I : Invariant) : Prop extends Changes I where
  anyAway : ∀ n, I.away n
  numbered : ∀ {s : Store}, I.store s → ∀ number, I.store { s with lastPage := number }
  unpinned : ∀ {s : Store}, I.store s → I.store s.unpin

/-- An invariant of the store that says nothing of its index. -/
def ofStore (S : Store → Prop) : Invariant where
  holds sh := S sh.store
  store := S

theorem evicts_ofStore {S : Store → Prop}
    (hindex : ∀ s index, S s → S { s with index := index })
    (hunvisited : ∀ s n, S s → S { s with replacer := s.replacer.remove n })
    (hforgotten : ∀ s n, S s → S (s.forgetPage n))
    (hcleaned : ∀ s, S s →
      S { s with pages := s.pages.mapValues fun p => { p with dirty := false } }) :
    (ofStore S).Evicts where
  store hsh := hsh
  withStore _ hs := hs
  disk _ := trivial
  withDisk hsh _ := hsh
  live _ _ := trivial
  withIndex hs _ := hindex _ _ hs
  exchange _ _ _ := trivial
  written _ _ _ := fun _ _ => ⟨trivial, fun _ _ => trivial⟩
  victim _ _ := trivial
  unvisited hs _ := hunvisited _ _ hs
  forgotten hs _ := hforgotten _ _ hs
  cleaned hs := hcleaned _ hs

variable {I : Invariant} {α : Type} {P : α → Prop}

namespace Evicts

theorem keeps_getStore (h : I.Evicts) : Keeps I.holds getStore I.store :=
  .bind (.get fun _ hsh => h.store hsh) fun _ hs => .pure hs

theorem keeps_modifyStore (h : I.Evicts) {f : Store → Store}
    (hf : ∀ s, I.store s → I.store (f s)) : Keeps I.holds (modifyStore f) fun _ => True :=
  .of_run fun sh hsh =>
    ⟨_, _, run_modifyStore f sh, h.withStore hsh (hf _ (h.store hsh)), fun _ _ => trivial⟩

theorem keeps_setStore (h : I.Evicts) {s : Store} (hs : I.store s) :
    Keeps I.holds (setStore s) fun _ => True :=
  h.keeps_modifyStore fun _ _ => hs

theorem keeps_setIndex (h : I.Evicts) {index : Index Slot} (hindex : I.index index) :
    Keeps I.holds (setIndex index) fun _ => True :=
  h.keeps_modifyStore fun _ hs => h.withIndex hs hindex

theorem keeps_liveIndex (h : I.Evicts) {s : Store} (hs : I.store s) :
    Keeps I.holds (liftM s.liveIndex) I.index := by
  refine .lift fun index hindex => ?_
  unfold Store.liveIndex at hindex
  split at hindex
  · rename_i live hlive
    exact Except.ok.inj hindex ▸ h.live hs hlive
  · cases hindex

theorem keeps_getIndex (h : I.Evicts) : Keeps I.holds getIndex I.index :=
  .bind h.keeps_getStore fun _ hs => h.keeps_liveIndex hs

theorem keeps_onDisk (h : I.Evicts) {action : Action Disk α} (ha : Keeps I.disk action P) :
    Keeps I.holds (onDisk action) P := by
  intro sh hsh
  rw [run_onDisk]
  obtain ⟨hafter, hpost⟩ := ha sh.disk (h.disk hsh)
  exact ⟨h.withDisk hsh hafter, hpost⟩

/-- A slot of the index is filled. -/
theorem keeps_exchange (h : I.Evicts) (key : Entry) {slot : Slot} (hslot : I.slot slot)
    {rest : Action Shelf α} (hrest : Keeps I.holds rest P) :
    Keeps I.holds (do
      let (_, index) ← (← getIndex).exchange key slot
      setIndex index
      rest) P := by
  apply Keeps.bind h.keeps_getIndex
  intro index hindex
  apply Keeps.bind (.lift fun _ h => h)
  rintro ⟨old, index'⟩ hexchange
  exact .bind (h.keeps_setIndex (h.exchange hindex hslot hexchange)) fun _ _ => hrest

/-! ## Writing and evicting pages -/

theorem keeps_writePage (h : I.Evicts) (page : Page) :
    Keeps I.holds (writePage page) fun _ => True := by
  apply Keeps.bind h.keeps_getStore
  intro s hs
  apply Keeps.bind (h.keeps_liveIndex hs)
  intro index hindex
  apply Keeps.bind (.lift fun _ himage => himage)
  intro image himage
  exact h.keeps_onDisk (h.written hs hindex himage)

theorem keeps_markEvicted (h : I.Evicts) {n : Nat} (hn : I.away n) (keys : List Entry) :
    Keeps I.holds (markEvicted n keys) fun _ => True := by
  induction keys with
  | nil => exact .pure trivial
  | cons key rest ih =>
    have hslot : I.slot (.evicted n) := hn
    exact h.keeps_exchange key hslot ih

theorem keeps_evict (h : I.Evicts) : Keeps I.holds evict fun _ => True := by
  apply Keeps.bind h.keeps_getStore
  intro s hs
  dsimp only
  split
  · exact .pure trivial
  rename_i n hvictim
  have hn := h.victim hs hvictim
  split
  · exact .bind (h.keeps_setStore (h.unvisited hs hn)) fun _ _ => .pure trivial
  rename_i page _
  -- only a page that has been changed is written, and only one that cannot be written stays
  split
  case' isTrue => refine .bind (h.keeps_writePage page).attempt fun written _ => ?_
  case' isFalse => refine .bind (.pure trivial) fun written (_ : True) => ?_
  all_goals
    cases written with
    | error e => exact .pure trivial
    | ok _ =>
      apply Keeps.bind (h.keeps_markEvicted hn page.keys)
      intro _ _
      exact .bind (h.keeps_modifyStore fun _ hs => h.forgotten hs hn) fun _ _ => .pure trivial

theorem keeps_makeRoom (h : I.Evicts) : Keeps I.holds makeRoom fun _ => True := by
  apply Keeps.bind h.keeps_getStore
  intro s _
  split
  · exact .bind h.keeps_evict fun _ _ => .pure trivial
  · exact .pure trivial

theorem keeps_persist (h : I.Evicts) : Keeps I.holds persist fun _ => True := by
  have hpages (pages : List Page) : Keeps I.holds (writePages pages) fun _ => True := by
    induction pages with
    | nil => exact .pure trivial
    | cons page rest ih => exact .bind (h.keeps_writePage page) fun _ _ => ih
  apply Keeps.bind h.keeps_getStore
  intro s hs
  apply Keeps.bind (h.keeps_liveIndex hs)
  intro _ _
  apply Keeps.bind (hpages _)
  intro _ _
  exact .bind (h.keeps_modifyStore fun _ hs => h.cleaned hs) fun _ _ => .pure trivial

/-- Rows that are read back are put on a page with the same number, and pinned if it was. -/
theorem keeps_reinstate (h : I.Evicts) (primary : Nat) (page : Page) {rows : List Row}
    (hrows : ∀ r ∈ rows, I.entries r.entries) :
    Keeps I.holds (reinstate primary page rows) fun restored =>
      restored.number = page.number ∧ restored.pinned = page.pinned := by
  induction rows generalizing page with
  | nil => exact .pure ⟨rfl, rfl⟩
  | cons row rest ih =>
    apply Keeps.bind (.lift fun _ _ => trivial)
    intro key (_ : True)
    have hslot : I.slot (.resident (row.placedOn page.number)) := hrows row (by simp)
    exact h.keeps_exchange key hslot (ih _ fun r hr => hrows r (by simp [hr]))

end Evicts

/-! ## Reading pages back -/

namespace Reads

theorem keeps_visit (h : I.Reads) (n : Nat) {pin : Bool} (hpin : pin = true → I.mayPin) :
    Keeps I.holds (modifyStore fun s => s.visit n pin) fun _ => True :=
  h.keeps_modifyStore fun _ hs => h.visited hs hpin n

theorem keeps_resurrect (h : I.Reads) {n : Nat} (hn : I.away n) (primary : Nat) :
    Keeps I.holds (resurrect n primary) fun _ => True := by
  apply Keeps.bind h.keeps_makeRoom
  intro _ _
  apply Keeps.bind h.keeps_getStore
  intro s hs
  apply Keeps.bind (h.keeps_onDisk (h.read hs n))
  intro image himage
  apply Keeps.bind (.lift himage)
  intro rows hrows
  apply Keeps.bind h.keeps_getIndex
  intro _ _
  apply Keeps.bind (h.keeps_reinstate primary { number := n } hrows)
  rintro restored ⟨hnumber, hpinned⟩
  exact .bind (h.keeps_modifyStore fun _ hs => h.brought hs hn hnumber hpinned _) fun _ _ =>
    h.keeps_visit n nofun

theorem keeps_resolve (h : I.Reads) (key : Entry) (primary : Nat) :
    Keeps I.holds (resolve key primary) fun _ => True := by
  apply Keeps.bind h.keeps_getIndex
  intro index hindex
  apply Keeps.bind (.lift fun _ hslot => h.fetch hindex hslot)
  intro slot hslot
  cases slot with
  | resident row => exact .pure trivial
  | evicted n =>
    apply Keeps.bind (h.keeps_resurrect hslot primary)
    intro _ _
    apply Keeps.bind h.keeps_getIndex
    intro index' _
    apply Keeps.bind (.lift fun _ _ => trivial)
    intro slot' (_ : True)
    cases slot' with
    | resident row => exact .pure trivial
    | evicted _ => exact .throw _

/-- A row that is got has entries that the invariant lets in. -/
theorem keeps_getRow (h : I.Reads) (key : Entry) (primary : Nat) :
    Keeps I.holds (getRow key primary) fun row => I.entries row.entries := by
  apply Keeps.bind (h.keeps_resolve key primary)
  intro page _
  apply Keeps.bind h.keeps_getIndex
  intro index hindex
  apply Keeps.bind (.lift fun _ hslot => h.fetch hindex hslot)
  intro slot hslot
  cases slot with
  | evicted _ => exact .throw _
  | resident row => exact .bind (h.keeps_visit page nofun) fun _ _ => .pure hslot

end Reads

/-! ## Adding, removing and changing rows -/

namespace Changes

theorem keeps_changePage (h : I.Changes) (n : Nat) {f : Page → Page}
    (hf : ∀ p, (f p).number = p.number ∧ (f p).pinned = p.pinned) :
    Keeps I.holds (changePage n f) fun _ => True := by
  apply Keeps.bind h.keeps_getStore
  intro s hs
  split
  · exact .throw _
  · rename_i p hp
    obtain ⟨hnumber, hpinned⟩ := hf p
    exact h.keeps_setStore (h.changed hs hp hnumber hpinned)

theorem keeps_addPage (h : I.Changes) : Keeps I.holds addPage fun _ => True :=
  .bind h.keeps_makeRoom fun _ _ => .bind (h.keeps_modifyStore fun _ hs => h.opened hs) fun _ _ =>
    .bind h.keeps_getStore fun _ _ => .pure trivial

theorem keeps_pageFor (h : I.Changes) (size : Nat) : Keeps I.holds (pageFor size) fun _ => True := by
  apply Keeps.bind h.keeps_getStore
  intro s _
  split
  · split
    · exact .pure trivial
    · exact h.keeps_addPage
  · exact h.keeps_addPage

theorem keeps_insertRow (h : I.Changes) {entries : List Entry} (hentries : I.entries entries)
    (primary : Nat) {pin : Bool} (hpin : pin = true → I.mayPin) :
    Keeps I.holds (insertRow entries primary pin) fun _ => True := by
  apply Keeps.bind (.lift fun _ _ => trivial)
  intro key (_ : True)
  apply Keeps.bind h.keeps_getIndex
  intro index _
  apply Keeps.throwIf
  apply Keeps.bind (h.keeps_pageFor _)
  intro page _
  apply Keeps.bind h.keeps_getIndex
  intro index hindex
  apply Keeps.bind (.lift fun _ h => h)
  intro index' hput
  have hslot : I.slot (.resident (Row.placedOn { entries := entries } page)) := hentries
  apply Keeps.bind (h.keeps_setIndex (h.put hindex hslot hput))
  intro _ _
  exact .bind (h.keeps_changePage page fun _ => ⟨rfl, rfl⟩) fun _ _ => h.keeps_visit page hpin

theorem keeps_deleteRow (h : I.Changes) (key : Entry) (primary : Nat) {pin : Bool}
    (hpin : pin = true → I.mayPin) : Keeps I.holds (deleteRow key primary pin) fun _ => True := by
  apply Keeps.bind (h.keeps_resolve key primary)
  intro page _
  apply Keeps.bind h.keeps_getIndex
  intro index hindex
  apply Keeps.bind (.lift fun _ h => h)
  rintro ⟨slot, index'⟩ htake
  apply Keeps.bind (h.keeps_setIndex (h.take hindex htake).1)
  intro _ _
  refine .bind (h.keeps_changePage page fun p => ?_) fun _ _ => h.keeps_visit page hpin
  unfold Page.remove
  split <;> exact ⟨rfl, rfl⟩

/-- The assignments have to lead to entries that the invariant lets in, in whatever order they are
made and however often to one column. -/
theorem keeps_updateRow (h : I.Changes) (key : Entry) (primary : Nat) {targets : List Nat}
    {values : List Entry}
    (hassign : ∀ entries, I.entries entries → I.entries (assign entries (targets.zip values)))
    {pin : Bool} (hpin : pin = true → I.mayPin) :
    Keeps I.holds (updateRow key primary targets values pin) fun _ => True := by
  apply Keeps.throwIf
  apply Keeps.bind (h.keeps_resolve key primary)
  intro page _
  apply Keeps.bind h.keeps_getIndex
  intro index hindex
  apply Keeps.bind (.lift fun _ _ => trivial)
  intro newKey (_ : True)
  apply Keeps.bind (.lift fun _ hslot => h.fetch hindex hslot)
  intro slot hslot
  cases slot with
  | evicted _ => exact .throw _
  | resident row =>
    dsimp only
    split
    · exact .throw _
    have hchanged : I.slot
        (.resident { row with entries := assign row.entries (targets.zip values) }) :=
      hassign row.entries hslot
    apply Keeps.bind (h.keeps_setIndex (h.modify hindex hchanged key))
    intro _ _
    apply Keeps.bind h.keeps_getStore
    intro s _
    apply Keeps.throwIf
    cases newKey with
    | none =>
      exact .bind (h.keeps_changePage page fun _ => ⟨rfl, rfl⟩) fun _ _ => h.keeps_visit page hpin
    | some new =>
      apply Keeps.bind h.keeps_getIndex
      intro index hindex
      apply Keeps.bind (.lift fun _ h => h)
      rintro ⟨slot, rest⟩ htake
      obtain ⟨hrest, hslot⟩ := h.take hindex htake
      apply Keeps.bind (h.keeps_setIndex hrest)
      intro _ _
      apply Keeps.bind (.lift fun _ h => h)
      intro index' hput
      apply Keeps.bind (h.keeps_setIndex (h.put hrest hslot hput))
      intro _ _
      exact .bind (h.keeps_changePage page fun _ => ⟨rfl, rfl⟩) fun _ _ => h.keeps_visit page hpin

end Changes

/-! ## Loading pages -/

namespace Loads

/-- Rows that are loaded are put on a page with the same number, and pinned if it was. -/
theorem keeps_loadRows (h : I.Loads) (primary : Nat) (resident : Bool) (page : Page)
    {rows : List Row} (hrows : ∀ r ∈ rows, I.entries r.entries) :
    Keeps I.holds (loadRows primary resident page rows) fun loaded =>
      loaded.number = page.number ∧ loaded.pinned = page.pinned := by
  induction rows generalizing page with
  | nil => exact .pure ⟨rfl, rfl⟩
  | cons row rest ih =>
    apply Keeps.bind (.lift fun _ _ => trivial)
    intro key (_ : True)
    apply Keeps.bind h.keeps_getIndex
    intro index hindex
    apply Keeps.bind (.lift fun _ h => h)
    intro index' hput
    have hslot : I.slot
        (if resident then .resident (row.placedOn page.number) else .evicted page.number) := by
      cases resident with
      | true => exact hrows row (by simp)
      | false => exact h.anyAway _
    apply Keeps.bind (h.keeps_setIndex (h.put hindex hslot hput))
    intro _ _
    have hrest := fun r hr => hrows r (List.mem_cons_of_mem row hr)
    cases resident with
    | false => exact ih page hrest
    | true => exact ih (page.add key row.byteSize) hrest

theorem keeps_insertPage (h : I.Loads) {rows : List Row} (hrows : ∀ r ∈ rows, I.entries r.entries)
    (primary : Nat) : Keeps I.holds (insertPage rows primary) fun _ => True := by
  apply Keeps.bind h.keeps_getIndex
  intro index _
  apply Keeps.bind (.lift fun _ _ => trivial)
  intro _ (_ : True)
  apply Keeps.bind h.keeps_getStore
  intro s _
  apply Keeps.bind (h.keeps_loadRows primary _ _ hrows)
  rintro page ⟨hnumber, hpinned⟩
  refine .bind (h.keeps_modifyStore fun _ hs => h.numbered hs _) fun _ _ => ?_
  dsimp only
  split
  · refine .bind (h.keeps_modifyStore fun s hs => ?_) fun _ _ =>
      .bind (h.keeps_visit _ nofun) fun _ _ => .pure trivial
    exact h.brought hs (h.anyAway _) hnumber hpinned s.resurrections
  · exact .pure trivial

end Loads

/-! ## Calls -/

/-- The calls whose entries and pins the invariant lets in. -/
def admits (I : Invariant) : StoreCall → Prop
  | .insert entries pin => I.entries entries ∧ (pin = true → I.mayPin)
  | .delete _ pin => pin = true → I.mayPin
  | .update _ targets values pin =>
    (∀ entries, I.entries entries → I.entries (assign entries (targets.zip values))) ∧
      (pin = true → I.mayPin)
  | _ => True

/-- An invariant of the store alone lets any call in. -/
theorem admits_ofStore (S : Store → Prop) (c : StoreCall) : (ofStore S).admits c := by
  cases c with
  | insert entries pin => exact ⟨trivial, fun _ => trivial⟩
  | delete key pin => exact fun _ => trivial
  | update key targets values pin => exact ⟨fun _ _ => trivial, fun _ => trivial⟩
  | _ => trivial

theorem Loads.keeps_call (h : I.Loads) (primary : Nat) {c : StoreCall} (hc : I.admits c) :
    Keeps I.holds (call primary c) fun _ => True := by
  cases c with
  | insert entries pin => exact .bind (h.keeps_insertRow hc.1 primary hc.2) fun _ _ => .pure trivial
  | delete key pin => exact .bind (h.keeps_deleteRow key primary hc) fun _ _ => .pure trivial
  | update key targets values pin =>
    exact .bind (h.keeps_updateRow key primary hc.1 hc.2) fun _ _ => .pure trivial
  | get key => exact .bind (h.keeps_getRow key primary) fun _ _ => .pure trivial
  | keys =>
    refine .bind h.keeps_getStore fun s _ => .bind (.lift fun _ _ => trivial) fun _ (_ : True) => ?_
    exact .pure trivial
  | nextKey after =>
    refine .bind h.keeps_getStore fun s _ => .bind (.lift fun _ _ => trivial) fun _ (_ : True) => ?_
    exact .pure trivial
  | size => exact .bind h.keeps_getStore fun _ _ => .pure trivial
  | persist => exact .bind h.keeps_persist fun _ _ => .pure trivial
  | unpin => exact .bind (h.keeps_modifyStore fun _ hs => h.unpinned hs) fun _ _ => .pure trivial

end Invariant

end Shelf

end PageDb
