import PageDb.Proofs.Store.Invariants

/-!
Pinned pages stay in memory.

`Store.Pins` says of some pages that they are pinned in memory, that the replacer will not choose
them, and that no row is recorded as being in the file of one of them.  Every operation on rows keeps
it, one step after the other and whether it fails or not; nothing has to be known about the page
files for that.  A sound shelf has it for all its pinned pages.
-/

namespace PageDb

/-! ## Values of an index -/

/-- Whether all values of an index are as `good` says. -/
def Index.All {ν : Type} (good : ν → Prop) (index : Index ν) : Prop :=
  ∀ b ∈ index.toList, good b.2

namespace Index.All

variable {ν : Type} {good : ν → Prop} {index index' : Index ν} {key : Entry} {value old : ν}

theorem get? (h : All good index) (hget : index.get? key = some value) : good value := by
  obtain ⟨k, hk⟩ := SortedMap.exists_mem_of_get? hget
  exact h _ hk

theorem fetch (h : All good index) (hfetch : index.fetch key = .ok value) : good value := by
  unfold Index.fetch at hfetch
  split at hfetch
  · rename_i found hget
    cases hfetch
    exact h.get? hget
  · cases hfetch

theorem modify (h : All good index) (hvalue : good value) (key : Entry) :
    All good (index.modify key fun _ => value) := by
  intro b hb
  rcases SortedMap.mem_modifyIn hb with hold | ⟨_, -, hnew, -⟩
  · exact h b hold
  · rwa [hnew]

theorem exchange (h : All good index) (hvalue : good value)
    (hexchange : index.exchange key value = .ok (old, index')) : All good index' := by
  unfold Index.exchange at hexchange
  split at hexchange
  · cases hexchange
    exact h.modify hvalue key
  · cases hexchange

theorem take (h : All good index) (htake : index.take key = .ok (old, index')) :
    All good index' ∧ good old := by
  unfold Index.take at htake
  split at htake
  · rename_i hget
    cases htake
    refine ⟨fun b hb => ?_, h.get? hget⟩
    exact h b ((SortedMap.eraseFrom_sublist key _).subset hb)
  · cases htake

theorem put (h : All good index) (hvalue : good value) (hput : index.put key value = .ok index') :
    All good index' := by
  unfold Index.put at hput
  split at hput
  · cases hput
  · rename_i hnew
    cases hput
    have hnone := Option.map_eq_none_iff.1 (SortedMap.getKey?_eq_none_iff.1 hnew)
    intro b hb
    rcases (SortedMap.mem_insertInto_of_new hnone).1 hb with rfl | hold
    · exact hvalue
    · exact h b hold

end Index.All

/-! ## Rows that are not on some pages -/

/-- No row is recorded as being in the file of one of the pages. -/
def ClearOf (held : Nat → Prop) (index : Index Slot) : Prop :=
  ∀ b ∈ index.toList, ∀ n, held n → b.2 ≠ .evicted n

namespace ClearOf

variable {held : Nat → Prop} {index index' : Index Slot} {key : Entry} {slot old : Slot}

theorem iff_all : ClearOf held index ↔ index.All fun slot => ∀ n, held n → slot ≠ .evicted n :=
  Iff.rfl

theorem fetch (h : ClearOf held index) {n : Nat} (hfetch : index.fetch key = .ok (.evicted n)) :
    ¬ held n :=
  fun hn => (iff_all.1 h).fetch hfetch n hn rfl

theorem modify (h : ClearOf held index) (hslot : ∀ n, held n → slot ≠ .evicted n) (key : Entry) :
    ClearOf held (index.modify key fun _ => slot) :=
  iff_all.2 ((iff_all.1 h).modify hslot key)

theorem exchange (h : ClearOf held index) (hslot : ∀ n, held n → slot ≠ .evicted n)
    (hexchange : index.exchange key slot = .ok (old, index')) : ClearOf held index' :=
  iff_all.2 ((iff_all.1 h).exchange hslot hexchange)

theorem take (h : ClearOf held index) (htake : index.take key = .ok (old, index')) :
    ClearOf held index' ∧ ∀ n, held n → old ≠ .evicted n :=
  (iff_all.1 h).take htake

theorem put (h : ClearOf held index) (hslot : ∀ n, held n → slot ≠ .evicted n)
    (hput : index.put key slot = .ok index') : ClearOf held index' :=
  iff_all.2 ((iff_all.1 h).put hslot hput)

end ClearOf

namespace Store

/-- The pages of `held` are pinned in memory and can neither be evicted nor read back; only if `may`
holds are there any pinned pages. -/
structure Pins (held : Nat → Prop) (may : Prop) (s : Store) : Prop where
  pages : s.pages.Ascending fun _ => True
  counted : s.replacer.Counted
  numbered : ∀ n p, s.pages.get? n = some p → p.number = n ∧ (p.pinned = true → may)
  opened : ∀ n, held n → n ≤ s.lastPage
  pinned : ∀ n, held n → s.Pinned n
  guarded : ∀ n, held n → (s.replacer.visits.get? n).map Visit.evictable = some false
  clear : ∀ index, s.index = some index → ClearOf held index

variable {held : Nat → Prop} {may : Prop} {s : Store} {n : Nat} {p : Page}

namespace Pins

/-- A page comes into memory, or changes there. -/
theorem withPage (h : s.Pins held may) (hnumber : p.number = n) (hmay : p.pinned = true → may)
    (hheld : held n → p.pinned = true) :
    ({ s with pages := s.pages.insert n p } : Store).Pins held may where
  pages := h.pages.insert SortedMap.orderedOn_all trivial p
  counted := h.counted
  numbered m q hq := by
    rw [SortedMap.get?_insert_eq h.pages] at hq
    split at hq
    · rename_i hm
      obtain rfl : p = q := Option.some.inj hq
      exact ⟨hnumber.trans hm.symm, hmay⟩
    · exact h.numbered m q hq
  opened := h.opened
  pinned m hm := by
    by_cases hmn : m = n
    · subst hmn
      exact ⟨p, by rw [SortedMap.get?_insert_eq h.pages, if_pos rfl], hheld hm⟩
    · obtain ⟨q, hq, hpinned⟩ := h.pinned m hm
      exact ⟨q, by rw [SortedMap.get?_insert_eq h.pages, if_neg hmn, hq], hpinned⟩
  guarded := h.guarded
  clear := h.clear

/-- The replacer learns of a visit. -/
theorem withVisit (h : s.Pins held may) (n : Nat) :
    ({ s with replacer := s.replacer.visit n } : Store).Pins held may where
  pages := h.pages
  counted := h.counted.visit n
  numbered := h.numbered
  opened := h.opened
  pinned := h.pinned
  guarded m hm := by
    have hguarded := h.guarded m hm
    rw [Replacer.get?_visit h.counted]
    split
    · rename_i hmn
      rw [← hmn, hguarded]
      rfl
    · exact hguarded
  clear := h.clear

/-- The replacer is told that a page may not be evicted. -/
theorem withGuard (h : s.Pins held may) (n : Nat) :
    ({ s with replacer := s.replacer.setEvictable n false } : Store).Pins held may where
  pages := h.pages
  counted := h.counted.setEvictable n false
  numbered := h.numbered
  opened := h.opened
  pinned := h.pinned
  guarded m hm := by
    have hguarded := h.guarded m hm
    rw [Replacer.get?_setEvictable h.counted]
    split
    · rename_i hmn
      obtain ⟨v, hv, -⟩ := Option.map_eq_some_iff.1 (hmn ▸ hguarded)
      rw [hv]
      rfl
    · exact hguarded
  clear := h.clear

theorem visit (h : s.Pins held may) (n : Nat) {pin : Bool} (hpin : pin = true → may) :
    (s.visit n pin).Pins held may := by
  have hvisit := h.withVisit n
  unfold Store.visit
  cases hp : s.pages.get? n with
  | none => exact hvisit
  | some p =>
    obtain ⟨hnumber, hmay⟩ := h.numbered n p hp
    have hheld (hn : held n) : p.pinned = true := by
      obtain ⟨q, hq, hpinned⟩ := h.pinned n hn
      obtain rfl : p = q := Option.some.inj (hp.symm.trans hq)
      exact hpinned
    dsimp only
    split
    · rename_i hboth
      exact (hvisit.withGuard n).withPage hnumber (fun _ => hpin hboth.1) fun _ => rfl
    · exact hvisit.withPage hnumber hmay hheld

/-- Any number of slots may be filled with rows in memory. -/
theorem withIndex (h : s.Pins held may) {index : Index Slot} (hindex : ClearOf held index) :
    ({ s with index := some index } : Store).Pins held may where
  pages := h.pages
  counted := h.counted
  numbered := h.numbered
  opened := h.opened
  pinned := h.pinned
  guarded := h.guarded
  clear _ hlive := Option.some.inj hlive ▸ hindex

theorem openPage (h : s.Pins held may) : s.openPage.Pins held may := by
  have hfresh (hn : held (s.lastPage + 1)) : False := by
    have hle := h.opened _ hn
    omega
  have hplaced := h.withPage (p := { number := s.lastPage + 1 }) rfl nofun fun hn => (hfresh hn).elim
  refine Pins.visit (s := { s with
    lastPage := s.lastPage + 1
    pages := s.pages.insert (s.lastPage + 1) { number := s.lastPage + 1 } }) ?_ _ nofun
  exact ⟨hplaced.pages, hplaced.counted, hplaced.numbered,
    fun n hn => Nat.le_succ_of_le (h.opened n hn), hplaced.pinned, hplaced.guarded, hplaced.clear⟩

/-- The replacer forgets a page. -/
theorem withoutVisit (h : s.Pins held may) (hn : ¬ held n) :
    ({ s with replacer := s.replacer.remove n } : Store).Pins held may where
  pages := h.pages
  counted := h.counted.remove n
  numbered := h.numbered
  opened := h.opened
  pinned := h.pinned
  guarded m hm := by
    have hne : m ≠ n := by
      rintro rfl
      exact hn hm
    rw [Replacer.get?_remove h.counted, if_neg hne]
    exact h.guarded m hm
  clear := h.clear

theorem forgetPage (h : s.Pins held may) (hn : ¬ held n) : (s.forgetPage n).Pins held may := by
  have hget (m : Nat) : (s.forgetPage n).pages.get? m = if m = n then none else s.pages.get? m :=
    SortedMap.get?_erase_eq h.pages n m
  have hrest := h.withoutVisit hn
  refine ⟨h.pages.erase n, hrest.counted, fun m p hp => ?_, h.opened, fun m hm => ?_, hrest.guarded,
    h.clear⟩
  · rw [hget] at hp
    split at hp
    · cases hp
    · exact h.numbered m p hp
  · have hne : m ≠ n := by
      rintro rfl
      exact hn hm
    obtain ⟨p, hp, hpinned⟩ := h.pinned m hm
    exact ⟨p, by rw [hget, if_neg hne, hp], hpinned⟩

/-- A page that may be evicted is none of those that are held. -/
theorem not_held_of_victim? (h : s.Pins held may) (hvictim : s.replacer.victim? = some n) :
    ¬ held n := by
  intro hn
  have hguarded := h.guarded n hn
  rw [Replacer.evictable_of_victim? h.counted hvictim] at hguarded
  cases hguarded

/-- The pages have been written. -/
theorem clean (h : s.Pins held may) :
    ({ s with pages := s.pages.mapValues fun p => { p with dirty := false } } : Store).Pins held may := by
  have hget (n : Nat) : (s.pages.mapValues fun p => { p with dirty := false }).get? n = _ :=
    SortedMap.get?_mapValues s.pages _ n
  refine ⟨h.pages.mapValues _, h.counted, fun n p hp => ?_, h.opened, fun n hn => ?_, h.guarded,
    h.clear⟩
  · rw [hget] at hp
    obtain ⟨q, hq, rfl⟩ := Option.map_eq_some_iff.1 hp
    exact h.numbered n q hq
  · obtain ⟨p, hp, hpinned⟩ := h.pinned n hn
    exact ⟨{ p with dirty := false }, by rw [hget, hp]; rfl, hpinned⟩

theorem mono (h : s.Pins held may) {held' : Nat → Prop} {may' : Prop}
    (hheld : ∀ n, held' n → held n) (hmay : may → may') : s.Pins held' may' where
  pages := h.pages
  counted := h.counted
  numbered n p hp := ⟨(h.numbered n p hp).1, fun hpinned => hmay ((h.numbered n p hp).2 hpinned)⟩
  opened n hn := h.opened n (hheld n hn)
  pinned n hn := h.pinned n (hheld n hn)
  guarded n hn := h.guarded n (hheld n hn)
  clear index hindex b hb n hn := h.clear index hindex b hb n (hheld n hn)

/-- A page that is pinned is pinned by someone who may. -/
theorem may_of_pinned (h : s.Pins held may) (hn : s.Pinned n) : may := by
  obtain ⟨p, hp, hpinned⟩ := hn
  exact (h.numbered n p hp).2 hpinned

end Pins

/-- A store without pages has no pins. -/
theorem pins_of_empty (hpages : s.pages = ∅) (hreplacer : s.replacer.Counted) (may : Prop) :
    s.Pins (fun _ => False) may where
  pages := hpages ▸ SortedMap.ascending_empty
  counted := hreplacer
  numbered n p hp := by
    rw [hpages] at hp
    cases hp
  opened _ := False.elim
  pinned _ := False.elim
  guarded _ := False.elim
  clear _ _ _ _ _ := False.elim

/-! ## Unpinning -/

theorem pinned_unpinPage_iff {m : Nat} : (s.unpinPage n).Pinned m ↔ m ≠ n ∧ s.Pinned m := by
  have hget : (s.unpinPage n).pages.get? m =
      if m = n then (s.pages.get? m).map fun p => { p with pinned := false } else s.pages.get? m :=
    SortedMap.get?_modify_eq _ _ _ _
  rw [Pinned, hget]
  split
  · rename_i hm
    simp [hm]
  · rename_i hm
    simp [hm, Pinned]

theorem Pins.unpinPage (h : s.Pins (fun _ => False) may) (n : Nat) :
    (s.unpinPage n).Pins (fun _ => False) may where
  pages := h.pages.modify n _
  counted := h.counted.setEvictable n true
  numbered m p hp := by
    have hget : (s.unpinPage n).pages.get? m = _ := SortedMap.get?_modify_eq _ _ _ _
    rw [hget] at hp
    split at hp
    · obtain ⟨q, hq, rfl⟩ := Option.map_eq_some_iff.1 hp
      exact ⟨(h.numbered m q hq).1, nofun⟩
    · exact h.numbered m p hp
  opened _ := False.elim
  pinned _ := False.elim
  guarded _ := False.elim
  clear _ _ _ _ _ := False.elim

/-- After all pages have been unpinned none is pinned. -/
theorem Pins.unpin (h : s.Pins held may) : s.unpin.Pins (fun _ => False) False := by
  have hfold (numbers : List Nat) {s : Store} (h : s.Pins (fun _ => False) may) :
      (numbers.foldl Store.unpinPage s).Pins (fun _ => False) may ∧
        ∀ m, (numbers.foldl Store.unpinPage s).Pinned m → m ∉ numbers ∧ s.Pinned m := by
    induction numbers generalizing s with
    | nil => exact ⟨h, fun m hm => ⟨List.not_mem_nil, hm⟩⟩
    | cons n rest ih =>
      obtain ⟨hpins, hpinned⟩ := ih (h.unpinPage n)
      refine ⟨hpins, fun m hm => ?_⟩
      obtain ⟨hrest, hone⟩ := hpinned m hm
      obtain ⟨hne, hold⟩ := pinned_unpinPage_iff.1 hone
      exact ⟨List.not_mem_cons_of_ne_of_not_mem hne hrest, hold⟩
  have hnone : s.Pins (fun _ => False) may := h.mono (fun _ => False.elim) id
  obtain ⟨hpins, hpinned⟩ := hfold _ hnone
  refine ⟨hpins.pages, hpins.counted, fun m p hp => ⟨(hpins.numbered m p hp).1, fun hp' => ?_⟩,
    fun _ => False.elim, fun _ => False.elim, fun _ => False.elim, fun _ _ _ _ _ => False.elim⟩
  -- every pinned page was among those that were unpinned, under its number
  obtain ⟨hnot, q, hq, hq'⟩ := hpinned m ⟨p, hp, hp'⟩
  apply hnot
  refine List.mem_map.2 ⟨q, List.mem_filter.2 ⟨?_, hq'⟩, (h.numbered m q hq).1⟩
  exact List.mem_map.2 ⟨(m, q), (SortedMap.mem_toList_iff h.pages).2 hq, rfl⟩

end Store

/-! ## Every operation keeps the pins -/

namespace Shelf

open PageDb.Action (Keeps)

variable {held : Nat → Prop} {may : Prop} {sh : Shelf}

/-- The pins of the store. -/
def Pins (held : Nat → Prop) (may : Prop) (sh : Shelf) : Prop := sh.store.Pins held may

/-- The pins as an invariant: the pages that are held may not be out of memory. -/
def pinning (held : Nat → Prop) (may : Prop) : Invariant where
  holds := Pins held may
  store := Store.Pins held may
  index := ClearOf held
  away n := ¬ held n
  mayPin := may

theorem ne_evicted_of_slot {slot : Slot} (hslot : (pinning held may).slot slot) (n : Nat)
    (hn : held n) : slot ≠ .evicted n := by
  rintro rfl
  exact hslot hn

theorem pinning_changes (held : Nat → Prop) (may : Prop) : (pinning held may).Changes where
  store hsh := hsh
  withStore _ hs := hs
  disk _ := trivial
  withDisk hsh _ := hsh
  live hs hlive := hs.clear _ hlive
  withIndex hs hindex := hs.withIndex hindex
  exchange hindex hslot hexchange := hindex.exchange (ne_evicted_of_slot hslot) hexchange
  written _ _ _ := fun _ _ => ⟨trivial, fun _ _ => trivial⟩
  victim hs hvictim := hs.not_held_of_victim? hvictim
  unvisited hs hn := hs.withoutVisit hn
  forgotten hs hn := hs.forgetPage hn
  cleaned hs := hs.clean
  fetch {_ _ slot} hindex hfetch := by
    cases slot with
    | resident row => trivial
    | evicted n => exact hindex.fetch hfetch
  read _ _ := fun _ _ => ⟨trivial, fun _ _ _ _ _ _ => trivial⟩
  brought hs hn hnumber hpinned resurrections := by
    have hplaced := hs.withPage hnumber (fun h => by simp [hpinned] at h) fun h => (hn h).elim
    exact ⟨hplaced.pages, hplaced.counted, hplaced.numbered, hplaced.opened, hplaced.pinned,
      hplaced.guarded, hplaced.clear⟩
  visited hs hpin n := hs.visit n hpin
  put hindex hslot hput := hindex.put (ne_evicted_of_slot hslot) hput
  take {_ _ _ slot} hindex htake := by
    obtain ⟨hrest, hslot⟩ := hindex.take htake
    refine ⟨hrest, ?_⟩
    cases slot with
    | resident row => trivial
    | evicted n => exact fun hn => hslot n hn rfl
  modify hindex hslot key := hindex.modify (ne_evicted_of_slot hslot) key
  opened hs := hs.openPage
  changed {s n p p'} hs hp hnumber hpinned := by
    obtain ⟨hn, hmay⟩ := hs.numbered n p hp
    refine hs.withPage (hnumber.trans hn) (fun h => hmay (hpinned ▸ h)) fun hheld => ?_
    obtain ⟨q, hq, h⟩ := hs.pinned n hheld
    obtain rfl : p = q := Option.some.inj (hp.symm.trans hq)
    exact hpinned.trans h

theorem keeps_insertRow (entries : List Entry) (primary : Nat) {pin : Bool}
    (hpin : pin = true → may) :
    Keeps (Pins held may) (insertRow entries primary pin) fun _ => True :=
  (pinning_changes held may).keeps_insertRow trivial primary hpin

theorem keeps_deleteRow (key : Entry) (primary : Nat) {pin : Bool} (hpin : pin = true → may) :
    Keeps (Pins held may) (deleteRow key primary pin) fun _ => True :=
  (pinning_changes held may).keeps_deleteRow key primary hpin

theorem keeps_updateRow (key : Entry) (primary : Nat) (targets : List Nat) (values : List Entry)
    {pin : Bool} (hpin : pin = true → may) :
    Keeps (Pins held may) (updateRow key primary targets values pin) fun _ => True :=
  (pinning_changes held may).keeps_updateRow key primary (fun _ _ => trivial) hpin

theorem keeps_getRow (key : Entry) (primary : Nat) :
    Keeps (Pins held may) (getRow key primary) fun _ => True :=
  (pinning_changes held may).keeps_getRow key primary

/-! ## Sound shelves -/

/-- A sound shelf reads back no page that is in memory, and evicts no page that is pinned. -/
theorem Sound.pins {t : ColumnType} {primary : Nat} (h : Sound t primary 0 sh)
    (hmay : ∀ n, sh.store.Pinned n → may) : sh.Pins sh.store.Pinned may where
  pages := h.pages
  counted := h.tracks.counted
  numbered n p hp := ⟨(h.agree.inMemory hp).number, fun hpinned => hmay n ⟨p, hp, hpinned⟩⟩
  opened n := by
    rintro ⟨p, hp, -⟩
    exact (h.agree.within hp).2
  pinned _ := id
  guarded n := by
    rintro ⟨p, hp, hpinned⟩
    rw [h.tracks.seen, hp]
    simp [Page.seen, hpinned]
  clear index hindex := by
    rintro ⟨k, slot⟩ hb n ⟨p, hp, -⟩ rfl
    obtain rfl : sh.index = index := Option.some.inj (h.live.symm.trans hindex)
    have hget := SortedMap.get?_of_mem (Entry.orderedOn_fits t) h.agree.ascending hb
    have hnone : sh.store.pages.get? n = none :=
      (h.agree.found (h.agree.ascending.holds _ hb) hget).1.1
    rw [hp] at hnone
    cases hnone

end Shelf

end PageDb
