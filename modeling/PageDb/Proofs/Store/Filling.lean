import PageDb.Proofs.Store.Pinning
import PageDb.Proofs.Store.Representation

/-!
How many pages are in memory.

A page that comes into memory makes room first: at the cap one page is evicted, unless all of them
are pinned.  So `Shelf.ceiling`, the number of pages after a call at most, exceeds the cap only by
pages that are pinned and one more.  `Store.Grown` is what every single step keeps, sound or not;
where a call makes room, soundness says that there is a page to evict.
-/

namespace PageDb

namespace Replacer

/-- Where there is no oldest page, no page may be evicted. -/
theorem not_evictable_of_oldest?_eq_none {visits : List (Nat × Visit)} {w : Nat × Visit}
    (h : oldest? visits = none) (hw : w ∈ visits) : w.2.evictable = false := by
  induction visits with
  | nil => cases hw
  | cons first rest ih =>
    rw [oldest?] at h
    split at h
    · cases h
    · rename_i hfirst
      rcases List.mem_cons.1 hw with rfl | hrest
      · exact Bool.eq_false_iff.2 hfirst
      · exact ih h hrest

/-- Where there is no page to evict, no page may be evicted. -/
theorem count_of_victim?_eq_none {r : Replacer} (h : r.Counted) (hvictim : r.victim? = none) :
    r.visits.count Visit.evictable = 0 := by
  unfold victim? at hvictim
  split at hvictim
  · rename_i hzero
    rw [← h.count, hzero]
  · refine List.countP_eq_zero.2 fun w hw => ?_
    have hfalse := not_evictable_of_oldest?_eq_none (Option.map_eq_none_iff.1 hvictim) hw
    simp [hfalse]

end Replacer

/-! ## Sizes -/

namespace SortedMap

variable {κ ν ω : Type}

theorem size_eq_count (m : SortedMap κ ν) : m.size = m.count fun _ => true := by
  simp [size, count]

theorem size_mapValues (m : SortedMap κ ν) (f : ν → ω) : (m.mapValues f).size = m.size := by
  simp [size, mapValues]

variable [Ord κ] {m : SortedMap κ ν} {key : κ} {v : ν}

theorem size_insert_of_get? (h : m.get? key = some v) (value : ν) :
    (m.insert key value).size = m.size := by
  have hcount := m.count_insert (fun _ => true) key value
  simp only [h, countOne, if_true] at hcount
  rw [size_eq_count, size_eq_count]
  omega

theorem size_insert_le (m : SortedMap κ ν) (key : κ) (value : ν) :
    (m.insert key value).size ≤ m.size + 1 := by
  have hcount := m.count_insert (fun _ => true) key value
  simp only [countOne, if_true] at hcount
  rw [size_eq_count, size_eq_count]
  omega

theorem size_erase_of_get? (h : m.get? key = some v) : (m.erase key).size + 1 = m.size := by
  have hcount := m.count_erase (fun _ => true) key
  simp only [h, countOne, if_true] at hcount
  rw [size_eq_count, size_eq_count]
  exact hcount

theorem size_erase_le (m : SortedMap κ ν) (key : κ) : (m.erase key).size ≤ m.size := by
  have hcount := m.count_erase (fun _ => true) key
  rw [size_eq_count, size_eq_count]
  omega

end SortedMap

namespace Store

variable {s s' s'' : Store} {n : Nat}

/-- At most `limit` pages are in memory, under the same cap as before. -/
structure Within (limit : Nat) (s s' : Store) : Prop where
  cap : s'.cap = s.cap
  pages : s'.residentCount ≤ limit

/-- At most `k` pages more are in memory than before. -/
abbrev Grown (k : Nat) (s s' : Store) : Prop := Within (s.residentCount + k) s s'

theorem Within.mono {k limit : Nat} (h : Within k s s') (hle : k ≤ limit) : Within limit s s' :=
  ⟨h.cap, Nat.le_trans h.pages hle⟩

theorem Within.trans {k l limit : Nat} (h : Within k s s') (h' : Grown l s' s'')
    (hlimit : k + l ≤ limit) : Within limit s s'' := by
  refine ⟨h'.cap.trans h.cap, ?_⟩
  have hfirst := h.pages
  have hsecond := h'.pages
  omega

/-- A visit brings no page into memory. -/
theorem grown_visit (s : Store) (n : Nat) (pin : Bool) : Grown 0 s (s.visit n pin) := by
  refine ⟨(alike_visit s n pin).cap, ?_⟩
  cases hp : s.pages.get? n with
  | none =>
    simp only [visit, hp]
    exact Nat.le_refl _
  | some p =>
    simp only [residentCount, pages_visit hp]
    exact Nat.le_of_eq (SortedMap.size_insert_of_get? hp _)

/-- A page is put into memory, and visited there. -/
theorem grown_place {number : Nat} {p : Page} (hcap : s'.cap = s.cap)
    (hpages : s'.pages = s.pages.insert number p) : Grown 1 s s' := by
  refine ⟨hcap, ?_⟩
  rw [residentCount, hpages]
  exact SortedMap.size_insert_le _ _ _

theorem grown_openPage (s : Store) : Grown 1 s s.openPage := by
  have hplaced : Grown 1 s { s with
      lastPage := s.lastPage + 1
      pages := s.pages.insert (s.lastPage + 1) { number := s.lastPage + 1 } } :=
    grown_place (p := { number := s.lastPage + 1 }) rfl rfl
  exact hplaced.trans (grown_visit _ _ _) (Nat.le_refl _)

theorem grown_unpin (s : Store) : Grown 0 s s.unpin := by
  have hpage (s : Store) (n : Nat) : Grown 0 s (s.unpinPage n) := by
    refine ⟨rfl, Nat.le_of_eq ?_⟩
    exact SortedMap.size_eq_of_keys (SortedMap.keys_modify _ _ _)
  have hfold (numbers : List Nat) (s : Store) : Grown 0 s (numbers.foldl unpinPage s) := by
    induction numbers generalizing s with
    | nil => exact ⟨rfl, Nat.le_refl _⟩
    | cons n rest ih => exact (hpage s n).trans (ih _) (Nat.le_refl _)
  exact hfold _ s

end Store

namespace Shelf

variable {t : ColumnType} {primary : Nat} {sh sh' : Shelf} {α β : Type}

/-! ## Every step adds one page at most -/

/-- Whether it fails or not, an action brings at most `k` pages more into memory. -/
def Grows (k : Nat) (a : Action Shelf α) : Prop :=
  ∀ sh, Store.Grown k sh.store (a.run sh).2.store

namespace Grows

variable {k l : Nat} {a : Action Shelf α} {f : α → Action Shelf β}

/-- Nothing happens to the pages in memory. -/
theorem of_pages (h : ∀ sh, (a.run sh).2.store.cap = sh.store.cap ∧
    (a.run sh).2.store.pages = sh.store.pages) : Grows 0 a := fun sh =>
  ⟨(h sh).1, Nat.le_of_eq (congrArg SortedMap.size (h sh).2)⟩

theorem pure (a : α) : Grows 0 (pure a : Action Shelf α) := of_pages fun _ => ⟨rfl, rfl⟩

theorem throw (e : Error) : Grows 0 (throw e : Action Shelf α) := of_pages fun _ => ⟨rfl, rfl⟩

theorem lift (r : Result α) : Grows 0 (liftM r : Action Shelf α) := of_pages fun _ => ⟨rfl, rfl⟩

theorem getStore : Grows 0 getStore := of_pages fun _ => ⟨rfl, rfl⟩

theorem modifyStore {f : Store → Store} (h : ∀ s, Store.Grown k s (f s)) :
    Grows k (modifyStore f) := fun sh => h sh.store

theorem setIndex (index : Index Slot) : Grows 0 (setIndex index) := of_pages fun _ => ⟨rfl, rfl⟩

theorem onDisk (action : Action Disk α) : Grows 0 (onDisk action) := of_pages fun _ => ⟨rfl, rfl⟩

theorem mono (h : Grows k a) (hle : k ≤ l) : Grows l a := fun sh =>
  (h sh).mono (Nat.add_le_add_left hle _)

theorem sequence (ha : Grows k a) (hf : ∀ x, Grows l (f x)) : Grows (k + l) (a >>= f) := by
  intro sh
  have hfirst := ha sh
  rcases hrun : a.run sh with ⟨e | x, sh'⟩
  · rw [hrun] at hfirst
    rw [Action.run_bind_error hrun]
    exact hfirst.mono (by omega)
  · rw [hrun] at hfirst
    rw [Action.run_bind_ok hrun]
    exact hfirst.trans (hf x sh') (by omega)

/-- The first step brings no page. -/
theorem bind (ha : Grows 0 a) (hf : ∀ x, Grows k (f x)) : Grows k (a >>= f) :=
  (sequence ha hf).mono (by omega)

/-- Only the first step brings pages. -/
theorem bindRest (ha : Grows k a) (hf : ∀ x, Grows 0 (f x)) : Grows k (a >>= f) :=
  sequence ha hf

/-- Where it is known how many pages there are after the first step. -/
theorem after {sh : Shelf} {limit : Nat} (ha : Store.Within k sh.store (a.run sh).2.store)
    (hf : ∀ x, Grows l (f x)) (hlimit : k + l ≤ limit) :
    Store.Within limit sh.store ((a >>= f).run sh).2.store := by
  rcases hrun : a.run sh with ⟨e | x, sh'⟩
  · rw [hrun] at ha
    rw [Action.run_bind_error hrun]
    exact ha.mono (by omega)
  · rw [hrun] at ha
    rw [Action.run_bind_ok hrun]
    exact ha.trans (hf x sh') hlimit

/-- No later step brings a page. -/
theorem afterAll {sh : Shelf} {limit : Nat}
    (ha : Store.Within limit sh.store (a.run sh).2.store) (hf : ∀ x, Grows 0 (f x)) :
    Store.Within limit sh.store ((a >>= f).run sh).2.store := after ha hf (Nat.le_refl _)

theorem getIndex : Grows 0 getIndex := bind getStore fun _ => lift _

theorem throwIf {c : Prop} [Decidable c] {e : Error} (ha : Grows k a) :
    Grows k (if c then (MonadExcept.throw e : Action Shelf Unit) >>= fun _ => a else a) := by
  split
  · exact (bind (throw e) fun _ => ha).mono (by omega)
  · exact ha

theorem changePage (n : Nat) (f : Page → Page) : Grows 0 (changePage n f) := by
  intro sh
  cases hp : sh.store.pages.get? n with
  | none =>
    simp only [Shelf.changePage, Action.run_bind_ok (run_getStore sh), hp]
    exact ⟨rfl, Nat.le_refl _⟩
  | some p =>
    rw [run_changePage hp]
    exact ⟨rfl, Nat.le_of_eq (SortedMap.size_insert_of_get? hp _)⟩

theorem visit (n : Nat) (pin : Bool) : Grows 0 (Shelf.modifyStore fun s => s.visit n pin) :=
  modifyStore fun s => s.grown_visit n pin

/-- Having no more pages in memory than a store had is an invariant of writing and evicting. -/
theorem evicts (s : Store) : (Invariant.ofStore (Store.Grown 0 s)).Evicts :=
  Invariant.evicts_ofStore (fun _ _ hs => ⟨hs.cap, hs.pages⟩) (fun _ _ hs => ⟨hs.cap, hs.pages⟩)
    (fun _ _ hs => ⟨hs.cap, Nat.le_trans (SortedMap.size_erase_le _ _) hs.pages⟩)
    fun _ hs => ⟨hs.cap, Nat.le_trans (Nat.le_of_eq (SortedMap.size_mapValues _ _)) hs.pages⟩

theorem of_keeps {P : α → Prop}
    (h : ∀ s, Action.Keeps (Invariant.ofStore (Store.Grown 0 s)).holds a P) : Grows 0 a := fun sh =>
  (h sh.store sh ⟨rfl, Nat.le_refl _⟩).1

theorem evict : Grows 0 evict := of_keeps fun s => (evicts s).keeps_evict

theorem makeRoom : Grows 0 makeRoom := of_keeps fun s => (evicts s).keeps_makeRoom

theorem persist : Grows 0 persist := of_keeps fun s => (evicts s).keeps_persist

theorem reinstate (primary : Nat) (page : Page) (rows : List Row) :
    Grows 0 (reinstate primary page rows) :=
  of_keeps fun s => (evicts s).keeps_reinstate primary page fun _ _ => trivial

theorem loadRows (primary : Nat) (resident : Bool) (page : Page) (rows : List Row) :
    Grows 0 (loadRows primary resident page rows) := by
  induction rows generalizing page with
  | nil => exact pure _
  | cons row rest ih =>
    exact bind (lift _) fun _ => bind getIndex fun _ => bind (lift _) fun _ =>
      bind (setIndex _) fun _ => ih _

end Grows

/-! ## Making room -/

/-- Whether the page that would be evicted next can be written, if it has to be. -/
def Evictable (sh : Shelf) : Prop :=
  sh.store.cap ≤ sh.store.residentCount → ∀ n ∈ sh.store.replacer.victim?,
    ∀ p ∈ sh.store.pages.get? n, p.dirty = true → ((writePage p).run sh).1.isOk = true

instance (sh : Shelf) : Decidable sh.Evictable :=
  inferInstanceAs (Decidable (sh.store.cap ≤ sh.store.residentCount →
    ∀ n ∈ sh.store.replacer.victim?, ∀ p ∈ sh.store.pages.get? n,
      p.dirty = true → ((writePage p).run sh).1.isOk = true))

/-- How many pages there may be in memory after the next call. -/
def ceiling (sh : Shelf) : Nat :=
  max sh.store.residentCount (max sh.store.cap (1 + sh.store.pinnedCount))

/-- Every page is pinned or not. -/
theorem residentCount_eq (sh : Shelf) : sh.store.residentCount =
    sh.store.pinnedCount + sh.store.pages.count fun p => !p.pinned := by
  have hlength := List.length_eq_countP_add_countP Page.pinned (l := sh.store.pages.values)
  rw [List.countP_eq_length_filter] at hlength
  simpa [Store.residentCount, Store.pinnedCount, SortedMap.size, SortedMap.count, SortedMap.values,
    List.countP_map, Function.comp_def] using hlength

/-- Some page may be evicted, unless all pages are pinned. -/
theorem Sound.residentCount_eq_pinnedCount (h : Sound t primary 0 sh)
    (hvictim : sh.store.replacer.victim? = none) :
    sh.store.residentCount = sh.store.pinnedCount := by
  have hnone := Replacer.count_of_victim?_eq_none h.tracks.counted hvictim
  rw [h.visits_eq, SortedMap.count_mapValues] at hnone
  have hcount : (sh.store.pages.count fun p => !p.pinned) = 0 := hnone
  rw [residentCount_eq, hcount, Nat.add_zero]

/-- The page chosen for eviction is in memory, and leaves it if it can be written. -/
theorem Sound.residentCount_evict (h : Sound t primary 0 sh) {n : Nat}
    (hvictim : sh.store.replacer.victim? = some n)
    (hwrite : ∀ p ∈ sh.store.pages.get? n, p.dirty = true →
      ((Shelf.writePage p).run sh).1.isOk = true) :
    (Shelf.evict.run sh).2.store.residentCount + 1 = sh.store.residentCount := by
  have hout {sh' : Shelf} {p : Page} (hp : sh.store.pages.get? n = some p)
      (hpages : sh'.store.pages = sh.store.pages) :
      (sh'.withoutPage n p).store.residentCount + 1 = sh.store.residentCount := by
    show (sh'.store.pages.erase n).size + 1 = sh.store.pages.size
    rw [hpages]
    exact SortedMap.size_erase_of_get? hp
  obtain ⟨b, sh', hrun, heviction⟩ := h.exists_eviction
  rw [hrun]
  cases heviction with
  | idle hnone => cases hnone.symm.trans hvictim
  | refused hvictim' hp hdirty hrefused =>
    cases hvictim'.symm.trans hvictim
    have hok := hwrite _ hp hdirty
    rw [hrefused] at hok
    cases hok
  | clean hvictim' hp _ =>
    cases hvictim'.symm.trans hvictim
    exact hout hp rfl
  | written hvictim' hp _ hwritten =>
    cases hvictim'.symm.trans hvictim
    obtain ⟨r, sh₁, hrun₁, -, -, hstore, -⟩ := h.writePage hp
    cases hwritten.symm.trans hrun₁
    exact hout hp (congrArg Store.pages hstore)

/-- After room has been made, one more page stays below the ceiling. -/
theorem Sound.residentCount_makeRoom (h : Sound t primary 0 sh) (hevictable : sh.Evictable) :
    (Shelf.makeRoom.run sh).2.store.residentCount + 1 ≤ sh.ceiling := by
  unfold ceiling
  by_cases hfull : sh.store.cap ≤ sh.store.pages.size
  · have hrun : (Shelf.makeRoom.run sh).2 = (Shelf.evict.run sh).2 := by
      unfold Shelf.makeRoom
      rw [Action.run_bind_ok (run_getStore sh), if_pos hfull, Action.run_bind_pure]
    rw [hrun]
    cases hvictim : sh.store.replacer.victim? with
    | none =>
      have hpinned := h.residentCount_eq_pinnedCount hvictim
      have hgrown := (Grows.evict sh).pages
      omega
    | some n =>
      have hone := h.residentCount_evict hvictim (hevictable hfull n hvictim)
      omega
  · have hrun : Shelf.makeRoom.run sh = (.ok (), sh) := by
      unfold Shelf.makeRoom
      rw [Action.run_bind_ok (run_getStore sh), if_neg hfull]
      rfl
    have hroom : sh.store.residentCount < sh.store.cap := Nat.lt_of_not_le hfull
    rw [hrun]
    show sh.store.residentCount + 1 ≤ _
    omega

/-- Where room is made first, one page may come. -/
theorem Sound.after_makeRoom (h : Sound t primary 0 sh) (hevictable : sh.Evictable)
    {f : Unit → Action Shelf α} (hf : ∀ x, Grows 1 (f x)) :
    Store.Within sh.ceiling sh.store ((Shelf.makeRoom >>= f).run sh).2.store :=
  Grows.after ⟨(Grows.makeRoom sh).cap, Nat.le_refl _⟩ hf (h.residentCount_makeRoom hevictable)

/-- Nothing has happened yet. -/
theorem within_self (sh : Shelf) : Store.Within sh.ceiling sh.store sh.store :=
  ⟨rfl, Nat.le_max_left _ _⟩

/-! ## Bringing a page into memory -/

theorem Sound.within_addPage (h : Sound t primary 0 sh) (hevictable : sh.Evictable) :
    Store.Within sh.ceiling sh.store (Shelf.addPage.run sh).2.store :=
  h.after_makeRoom hevictable fun _ =>
    .bindRest (.modifyStore Store.grown_openPage) fun _ => .bind .getStore fun _ => .pure _

theorem Sound.within_resurrect (h : Sound t primary 0 sh) (hevictable : sh.Evictable)
    (n : Nat) : Store.Within sh.ceiling sh.store ((Shelf.resurrect n primary).run sh).2.store :=
  h.after_makeRoom hevictable fun _ =>
    .bind .getStore fun _ => .bind (.onDisk _) fun _ => .bind (.lift _) fun _ =>
      .bind .getIndex fun _ => .bind (.reinstate _ _ _) fun _ =>
        .bindRest (.modifyStore fun _ => Store.grown_place rfl rfl) fun _ => .visit n false

/-- The page of a new row has to be opened: the row does not fit on the page opened last, or that is
not in memory. -/
def Full (sh : Shelf) (size : Nat) : Prop :=
  ∀ p, sh.store.pages.get? sh.store.lastPage = some p → p.fits size sh.store.budget = false

theorem Sound.within_pageFor (h : Sound t primary 0 sh) {size : Nat}
    (hevictable : sh.Full size → sh.Evictable) :
    Store.Within sh.ceiling sh.store ((Shelf.pageFor size).run sh).2.store := by
  unfold Shelf.pageFor
  rw [Action.run_bind_ok (run_getStore sh)]
  cases hp : sh.store.pages.get? sh.store.lastPage with
  | none =>
    refine h.within_addPage (hevictable fun p hp' => ?_)
    rw [hp] at hp'
    cases hp'
  | some p =>
    dsimp only
    split
    · exact sh.within_self
    · rename_i hfull
      refine h.within_addPage (hevictable fun q hq => ?_)
      obtain rfl : p = q := Option.some.inj (hp.symm.trans hq)
      exact Bool.eq_false_iff.2 hfull

/-- The row of a key is on a page that is not in memory. -/
def Missing (sh : Shelf) (key : Entry) : Prop := ∃ n, sh.index.get? key = some (.evicted n)

theorem Sound.within_resolve (h : Sound t primary 0 sh) {key : Entry}
    (hevictable : sh.Missing key → sh.Evictable) :
    Store.Within sh.ceiling sh.store ((Shelf.resolve key primary).run sh).2.store := by
  unfold Shelf.resolve
  rw [Action.run_bind_ok (run_getIndex h.live)]
  cases hget : sh.index.get? key with
  | none =>
    have hfetch : sh.index.fetch key = .error (.keyNotFound key) := by simp [Index.fetch, hget]
    rw [hfetch, Action.run_bind_error (Action.run_lift _ _)]
    exact sh.within_self
  | some slot =>
    have hfetch : sh.index.fetch key = .ok slot := by simp [Index.fetch, hget]
    rw [hfetch, Action.run_bind_ok (Action.run_lift _ _)]
    cases slot with
    | resident row => exact sh.within_self
    | evicted n =>
      refine Grows.afterAll (h.within_resurrect (hevictable ⟨n, hget⟩) n) fun _ =>
        .bind .getIndex fun _ => .bind (.lift _) fun slot => ?_
      cases slot with
      | resident row => exact .pure _
      | evicted _ => exact .throw _

/-! ## Calls -/

/-- Whether a call brings a page into memory, a new one or one that was evicted. -/
def BringsPage (primary : Nat) (sh : Shelf) : StoreCall → Prop
  | .insert entries _ => ∃ key, entries[primary]? = some key ∧ sh.index.contains key = false ∧
      sh.Full ({ entries := entries } : Row).byteSize
  | .delete key _ => sh.Missing key
  | .update key targets values _ => targets.length = values.length ∧ sh.Missing key
  | .get key => sh.Missing key
  | _ => False

theorem Sound.within_insertRow (h : Sound t primary 0 sh) {entries : List Entry} (pin : Bool)
    (hevictable : sh.BringsPage primary (.insert entries pin) → sh.Evictable) :
    Store.Within sh.ceiling sh.store ((Shelf.insertRow entries primary pin).run sh).2.store := by
  unfold Shelf.insertRow
  cases hkey : entries[primary]? with
  | none =>
    simp only [Row.key, hkey]
    exact sh.within_self
  | some key =>
    simp only [Row.key, hkey]
    rw [Action.run_bind_ok (Action.run_lift _ _), Action.run_bind_ok (run_getIndex h.live)]
    split
    · exact sh.within_self
    · rename_i hnew
      have hpage := h.within_pageFor fun hfull =>
        hevictable ⟨key, hkey, Bool.eq_false_iff.2 hnew, hfull⟩
      exact Grows.afterAll hpage fun page => .bind .getIndex fun _ => .bind (.lift _) fun _ =>
        .bind (.setIndex _) fun _ => .bind (.changePage _ _) fun _ => .visit page pin

theorem Sound.within_deleteRow (h : Sound t primary 0 sh) {key : Entry} (pin : Bool)
    (hevictable : sh.Missing key → sh.Evictable) :
    Store.Within sh.ceiling sh.store ((Shelf.deleteRow key primary pin).run sh).2.store :=
  Grows.afterAll (h.within_resolve hevictable) fun page =>
    .bind .getIndex fun _ => .bind (.lift _) fun _ => .bind (.setIndex _) fun _ =>
      .bind (.changePage _ _) fun _ => .visit page pin

theorem Sound.within_getRow (h : Sound t primary 0 sh) {key : Entry}
    (hevictable : sh.Missing key → sh.Evictable) :
    Store.Within sh.ceiling sh.store ((Shelf.getRow key primary).run sh).2.store := by
  refine Grows.afterAll (h.within_resolve hevictable) fun page =>
    .bind .getIndex fun _ => .bind (.lift _) fun slot => ?_
  cases slot with
  | evicted _ => exact .throw _
  | resident row => exact .bind (.visit page false) fun _ => .pure _

theorem Sound.within_updateRow (h : Sound t primary 0 sh) {key : Entry} {targets : List Nat}
    {values : List Entry} (pin : Bool)
    (hevictable : targets.length = values.length ∧ sh.Missing key → sh.Evictable) :
    Store.Within sh.ceiling sh.store
      ((Shelf.updateRow key primary targets values pin).run sh).2.store := by
  unfold Shelf.updateRow
  split
  · exact sh.within_self
  rename_i hlength
  have hresolve := h.within_resolve fun hmissing =>
    hevictable ⟨Decidable.not_not.1 hlength, hmissing⟩
  refine Grows.afterAll hresolve fun page => .bind .getIndex fun index => .bind (.lift _) fun newKey =>
    .bind (.lift _) fun slot => ?_
  cases slot with
  | evicted _ => exact .throw _
  | resident row =>
    dsimp only
    split
    · exact .throw _
    apply Grows.bind (.setIndex _)
    intro _
    apply Grows.bind .getStore
    intro s
    apply Grows.throwIf
    cases newKey with
    | none => exact .bind (.changePage page _) fun _ => .visit page pin
    | some new =>
      exact .bind .getIndex fun _ => .bind (.lift _) fun _ => .bind (.setIndex _) fun _ =>
        .bind (.lift _) fun _ => .bind (.setIndex _) fun _ => .bind (.changePage page _) fun _ =>
          .visit page pin

/-- No call leaves more pages in memory than the ceiling. -/
theorem Sound.within_call (h : Sound t primary 0 sh) {c : StoreCall}
    (hevictable : sh.BringsPage primary c → sh.Evictable) :
    Store.Within sh.ceiling sh.store ((Shelf.call primary c).run sh).2.store := by
  have hstill {a : Action Shelf StoreAnswer} (ha : Grows 0 a) :
      Store.Within sh.ceiling sh.store (a.run sh).2.store :=
    (ha sh).mono (Nat.le_max_left _ _)
  cases c with
  | insert entries pin => exact Grows.afterAll (h.within_insertRow pin hevictable) fun _ => .pure _
  | delete key pin => exact Grows.afterAll (h.within_deleteRow pin hevictable) fun _ => .pure _
  | update key targets values pin =>
    exact Grows.afterAll (h.within_updateRow pin hevictable) fun _ => .pure _
  | get key => exact Grows.afterAll (h.within_getRow hevictable) fun _ => .pure _
  | keys => exact hstill (.bind .getStore fun _ => .bind (.lift _) fun _ => .pure _)
  | nextKey after => exact hstill (.bind .getStore fun _ => .bind (.lift _) fun _ => .pure _)
  | size => exact hstill (.bind .getStore fun _ => .pure _)
  | persist => exact hstill (.bind .persist fun _ => .pure _)
  | unpin => exact hstill (.bind (.modifyStore Store.grown_unpin) fun _ => .pure _)

/-- A page that is loaded stays in memory only while there is room. -/
theorem Sound.within_insertPage (h : Sound t primary 0 sh) (rows : List Row) :
    Store.Within sh.ceiling sh.store ((Shelf.insertPage rows primary).run sh).2.store := by
  unfold Shelf.insertPage
  rw [Action.run_bind_ok (run_getIndex h.live)]
  cases newKeys sh.index primary ∅ rows with
  | error e => exact sh.within_self
  | ok _ =>
    rw [Action.run_bind_ok (Action.run_lift _ _), Action.run_bind_ok (run_getStore sh)]
    dsimp only
    by_cases hroom : sh.store.pages.size < sh.store.cap
    · simp only [hroom, decide_true, if_true]
      have hlimit : sh.store.residentCount + 1 ≤ sh.ceiling :=
        Nat.le_trans hroom (Nat.le_trans (Nat.le_max_left _ _) (Nat.le_max_right _ _))
      apply Store.Within.mono _ hlimit
      apply Grows.bind (k := 1) (.loadRows _ _ _ _)
      intro page
      apply Grows.bind (k := 1)
      · exact .modifyStore fun _ => ⟨rfl, Nat.le_refl _⟩
      intro _
      apply Grows.bindRest
      · exact .modifyStore fun _ => Store.grown_place rfl rfl
      exact fun _ => .bind (.visit _ false) fun _ => .pure _
    · simp only [hroom, decide_false, Bool.false_eq_true, if_false]
      apply Store.Within.mono _ (Nat.le_max_left _ _)
      apply Grows.bind (k := 0) (.loadRows _ _ _ _)
      intro page
      apply Grows.bind (k := 0)
      · exact .modifyStore fun _ => ⟨rfl, Nat.le_refl _⟩
      exact fun _ => .pure _

end Shelf

/-! ## Runs that pin no page -/

/-- Whether a call asks for its page to be pinned. -/
def StoreCall.pins : StoreCall → Bool
  | .insert _ pin => pin
  | .delete _ pin => pin
  | .update _ _ _ pin => pin
  | _ => false

namespace Shelf

open PageDb.Action (Keeps)

/-- Where no pins are to be kept, pages may be loaded and unpinned. -/
theorem pinning_loads (may : Prop) : (pinning (fun _ => False) may).Loads where
  toChanges := pinning_changes _ may
  anyAway _ := id
  numbered hs _ := ⟨hs.pages, hs.counted, hs.numbered, fun _ => False.elim, hs.pinned, hs.guarded,
    hs.clear⟩
  unpinned hs := hs.unpin.mono (fun _ => False.elim) False.elim

/-- Loading a page pins none. -/
theorem keeps_insertPage (rows : List Row) (primary : Nat) :
    Keeps (Pins (fun _ => False) False) (insertPage rows primary) fun _ => True :=
  (pinning_loads False).keeps_insertPage (fun _ _ => trivial) primary

/-- A call that asks for no pin pins no page. -/
theorem keeps_call (primary : Nat) {c : StoreCall} (hc : c.pins = false) :
    Keeps (Pins (fun _ => False) False) (call primary c) fun _ => True := by
  refine (pinning_loads False).keeps_call primary ?_
  have hpin {pin : Bool} (h : pin = false) : pin = true → False := by simp [h]
  cases c with
  | insert entries pin => exact ⟨trivial, hpin hc⟩
  | delete key pin => exact hpin hc
  | update key targets values pin => exact ⟨fun _ _ => trivial, hpin hc⟩
  | _ => trivial

end Shelf

/-- Where no page may be pinned there are no pinned pages. -/
theorem Store.Pins.pinnedCount_eq_zero {held : Nat → Prop} {s : Store} (h : s.Pins held False) :
    s.pinnedCount = 0 := by
  rw [Store.pinnedCount, List.length_eq_zero_iff, List.filter_eq_nil_iff]
  intro p hp hpinned
  obtain ⟨n, hn⟩ := (SortedMap.mem_values_iff h.pages).1 hp
  exact (h.numbered n p hn).2 hpinned

/-! ## Runs -/

/-- The shelves that calls and loads lead to from a new store, as long as every page that has to make
room for another one can be written.  `peak` is the largest number of pages that have been pinned at
once, `pinning` whether any call asked for a pin. -/
inductive Filled (t : ColumnType) (primary : Nat) (config : Config) :
    (peak : Nat) → (pinning : Bool) → Shelf → Prop where
  | new (database table : String) {disk : Disk} (hdisk : disk.directory.Ordered) :
      Filled t primary config 0 false ⟨config.newStore database table, disk⟩
  | call {peak : Nat} {pinning : Bool} {sh : Shelf} {c : StoreCall}
      (h : Filled t primary config peak pinning sh) (hc : c.Typed t primary)
      (hwrite : sh.BringsPage primary c → sh.Evictable) :
      Filled t primary config
        (max peak ((Shelf.call primary c).run sh).2.store.pinnedCount) (pinning || c.pins)
        ((Shelf.call primary c).run sh).2
  | load {peak : Nat} {pinning : Bool} {sh : Shelf} {rows : List Row}
      (h : Filled t primary config peak pinning sh) (hrows : sh.NextFile rows)
      (hfits : ∀ r ∈ rows, ∀ key, r.entries[primary]? = some key → key.fits t) :
      Filled t primary config
        (max peak ((Shelf.insertPage rows primary).run sh).2.store.pinnedCount) pinning
        ((Shelf.insertPage rows primary).run sh).2

namespace Filled

variable {t : ColumnType} {primary peak : Nat} {config : Config} {pinning : Bool} {sh : Shelf}

theorem reachable (h : Filled t primary config peak pinning sh) : Reachable t primary sh := by
  induction h with
  | new database table hdisk => exact .new config database table hdisk
  | call _ hc _ ih => exact .call ih hc
  | load _ hrows hfits ih => exact .load ih hrows hfits

theorem pinnedCount_le (h : Filled t primary config peak pinning sh) :
    sh.store.pinnedCount ≤ peak := by
  cases h with
  | new => exact Nat.le_refl 0
  | call => exact Nat.le_max_right _ _
  | load => exact Nat.le_max_right _ _

/-- Where no call asked for a pin there has never been a pinned page. -/
theorem peak_eq_zero (h : Filled t primary config peak pinning sh) (hpinning : pinning = false) :
    peak = 0 ∧ sh.Pins (fun _ => False) False := by
  induction h with
  | new database table hdisk => exact ⟨rfl, Store.pins_of_empty rfl Replacer.counted_empty False⟩
  | @call peak pinning sh c _ _ _ ih =>
    obtain ⟨hpinning, hc⟩ := Bool.or_eq_false_iff.1 hpinning
    obtain ⟨hpeak, hpins⟩ := ih hpinning
    have hafter := (Shelf.keeps_call primary hc sh hpins).1
    refine ⟨?_, hafter⟩
    rw [hpeak, Store.Pins.pinnedCount_eq_zero hafter, Nat.max_self]
  | @load peak pinning sh rows _ _ _ ih =>
    obtain ⟨hpeak, hpins⟩ := ih hpinning
    have hafter := (Shelf.keeps_insertPage rows primary sh hpins).1
    refine ⟨?_, hafter⟩
    rw [hpeak, Store.Pins.pinnedCount_eq_zero hafter, Nat.max_self]

/-- A step that ends below the ceiling ends below the bound. -/
theorem within_step {bound : Nat} {s : Store} (hcap : sh.store.cap = config.cap)
    (hcount : sh.store.residentCount ≤ max config.cap (1 + peak)) (hpinned : sh.store.pinnedCount ≤ peak)
    (hwithin : Store.Within sh.ceiling sh.store s) (hbound : peak ≤ bound) :
    s.cap = config.cap ∧ s.residentCount ≤ max config.cap (1 + bound) := by
  refine ⟨hwithin.cap.trans hcap, ?_⟩
  have hpages := hwithin.pages
  unfold Shelf.ceiling at hpages
  omega

theorem within (h : Filled t primary config peak pinning sh) :
    sh.store.cap = config.cap ∧ sh.store.residentCount ≤ max config.cap (1 + peak) := by
  induction h with
  | new => exact ⟨rfl, Nat.zero_le _⟩
  | call h _ hwrite ih =>
    exact within_step ih.1 ih.2 h.pinnedCount_le (h.reachable.sound.within_call hwrite)
      (Nat.le_max_left _ _)
  | @load _ _ _ rows h _ _ ih =>
    exact within_step ih.1 ih.2 h.pinnedCount_le (h.reachable.sound.within_insertPage rows)
      (Nat.le_max_left _ _)

end Filled

/-- The number of pages in memory never exceeds the cap by more than the pages that had to stay: it
is at most one more than the number of pages that have been pinned at once.  Without pins it never
exceeds the cap. -/
theorem residentCount_le_of_filled {t : ColumnType} {primary peak : Nat} {config : Config}
    {pinning : Bool} {sh : Shelf} (h : Filled t primary config peak pinning sh) :
    sh.store.residentCount ≤ max config.cap (1 + peak) ∧
      (pinning = false → 1 ≤ config.cap → sh.store.residentCount ≤ config.cap) := by
  have hbound := h.within.2
  refine ⟨hbound, fun hpinning hcap => ?_⟩
  obtain ⟨rfl, -⟩ := h.peak_eq_zero hpinning
  omega

/-- A page budget and a cap for one row each. -/
def oneRowEach : Config := { budget := 1, cap := 1 }

/-- A shelf for such rows. -/
def narrowShelf : Shelf := ⟨oneRowEach.newStore "shop" "items", {}⟩

/-- The second row evicts the page of the first one.  With its own page pinned, reading the first row
makes two pages in memory, and no more; without the pin there is one. -/
theorem residentCount_le_of_narrowShelf :
    let pinned := Shelf.after 0 [.insert [.int 1] false, .insert [.int 2] true, .get (.int 1)] narrowShelf
    let plain := Shelf.after 0 [.insert [.int 1] false, .insert [.int 2] false] narrowShelf
    pinned.store.residentCount = 2 ∧ pinned.store.residentCount ≤ max 1 (1 + 1) ∧
      plain.store.residentCount ≤ 1 := by
  intro pinned plain
  have step {calls : List StoreCall} {peak : Nat} {pinning : Bool} (c : StoreCall) (peak' : Nat)
      (h : Filled .int 0 oneRowEach peak pinning (Shelf.after 0 calls narrowShelf))
      (hc : c.Typed .int 0) (hwrite : (Shelf.after 0 calls narrowShelf).Evictable)
      (hpeak : max peak (Shelf.after 0 (calls ++ [c]) narrowShelf).store.pinnedCount = peak') :
      Filled .int 0 oneRowEach peak' (pinning || c.pins)
        (Shelf.after 0 (calls ++ [c]) narrowShelf) := by
    rw [Shelf.after, List.foldl_append] at hpeak ⊢
    exact hpeak ▸ h.call hc fun _ => hwrite
  have htyped (n : Int32) (pin : Bool) : (StoreCall.insert [.int n] pin).Typed .int 0 := by
    rintro key ⟨⟩
    exact .inr rfl
  have hempty : Filled .int 0 oneRowEach 0 false (Shelf.after 0 [] narrowShelf) :=
    .new _ _ Directory.ordered_empty
  have hfirst := step (.insert [.int 1] false) 0 hempty (htyped 1 false)
    (by decide +kernel) (by decide +kernel)
  have hwritten : (Shelf.after 0 [.insert [.int 1] false] narrowShelf).Evictable := by decide +kernel
  have hpinned := step (.insert [.int 2] true) 1 hfirst (htyped 2 true) hwritten
    (by decide +kernel)
  have hread := step (.get (.int 1)) 1 hpinned (.inr rfl)
    (by decide +kernel) (by decide +kernel)
  have hplain := step (.insert [.int 2] false) 0 hfirst (htyped 2 false) hwritten
    (by decide +kernel)
  exact ⟨by decide +kernel, (residentCount_le_of_filled hread).1,
    (residentCount_le_of_filled hplain).2 rfl (Nat.le_refl 1)⟩

end PageDb
