import Mathlib.Data.List.Nodup
import PageDb.Proofs.Store.Assigning
import PageDb.Proofs.Store.Pages
import PageDb.Proofs.Store.Pinning

/-!
Calls on rows that fail.

A call that would add rows fails before anything has changed.  A call on a row that is there may have
brought its page into memory by then: `Shelf.Undisturbed` says that this is all it has done.
-/

namespace PageDb

variable {t : ColumnType} {primary : Nat}

/-! ## The bytes of a page -/

theorem rowBytes_perm {rows more : List Row} (h : rows.Perm more) : rowBytes rows = rowBytes more := by
  induction h with
  | nil => rfl
  | cons r _ ih => simp only [rowBytes, List.foldr_cons] at ih ⊢; omega
  | swap r s rest => simp only [rowBytes, List.foldr_cons]; omega
  | trans _ _ ih ih' => exact ih.trans ih'

/-- The rows of a page are different rows. -/
theorem Fills.nodup {contents : SortedMap Entry Row} {n : Nat} {rows : List Row}
    (h : Fills t primary contents n rows) : rows.Nodup := by
  refine h.distinct.imp_of_mem fun {a b} ha _ hdiffer heq => ?_
  rw [← heq, Entry.same_refl (h.keyed a ha).fits] at hdiffer
  cases hdiffer

namespace Shelf

variable {sh sh' : Shelf}

/-- The bytes of the rows on a page, in memory or not. -/
def pageBytes (primary : Nat) (sh : Shelf) (n : Nat) : Nat :=
  rowBytes ((sh.rows primary).values.filter fun r => r.position = n)

/-- No row is there twice. -/
theorem Sound.nodup_values (h : Sound t primary 0 sh) : (sh.rows primary).values.Nodup := by
  refine nodup_values_of_keyed primary h.agree.ascending_contentsOf fun hk hrow => ?_
  obtain ⟨hkeyed, hsame, -⟩ := h.agree.keyed_of_get?_contentsOf hk hrow
  exact ⟨hkeyed, hsame⟩

/-- A page in memory counts the bytes of its rows. -/
theorem Sound.size_eq (h : Sound t primary 0 sh) {n : Nat} {p : Page}
    (hp : sh.store.pages.get? n = some p) : p.size = sh.pageBytes primary n := by
  have hfills := h.agree.fills_inMemory hp
  rw [(h.agree.inMemory hp).size]
  refine rowBytes_perm ((List.perm_ext_iff_of_nodup hfills.nodup (h.nodup_values.filter _)).2 ?_)
  intro r
  rw [List.mem_filter, hfills.mem, decide_eq_true_eq]
  rfl

end Shelf

/-! ## Exchanging pages -/

/-- Pages that stay in memory are as they were, pages that leave it were not pinned, and pages that
come are neither pinned nor marked as changed. -/
structure Store.Exchanges (s s' : Store) : Prop where
  kept : ∀ {n p p'}, s.pages.get? n = some p → s'.pages.get? n = some p' → p' = p
  left : ∀ {n p}, s.pages.get? n = some p → s'.pages.get? n = none → p.pinned = false
  came : ∀ {n p'}, s.pages.get? n = none → s'.pages.get? n = some p' →
    p'.pinned = false ∧ p'.dirty = false

namespace Store.Exchanges

variable {s s' : Store}

theorem refl (s : Store) : s.Exchanges s where
  kept hp hp' := Option.some.inj (hp'.symm.trans hp)
  left hp hnone := by simp [hp] at hnone
  came hnone hp := by simp [hnone] at hp

/-- The same pages are pinned. -/
theorem pinned_iff (h : s.Exchanges s') (n : Nat) : s'.Pinned n ↔ s.Pinned n := by
  constructor
  · rintro ⟨p', hp', hpinned⟩
    cases hp : s.pages.get? n with
    | none => simp [(h.came hp hp').1] at hpinned
    | some p =>
      obtain rfl := h.kept hp hp'
      exact ⟨p', hp, hpinned⟩
  · rintro ⟨p, hp, hpinned⟩
    cases hp' : s'.pages.get? n with
    | none => simp [h.left hp hp'] at hpinned
    | some p' =>
      obtain rfl := h.kept hp hp'
      exact ⟨p', hp', hpinned⟩

end Store.Exchanges

namespace Shelf

variable {sh sh' : Shelf}

/-- Only a page that is not pinned makes room for another. -/
theorem Sound.exchanges_makeRoom (h : Sound t primary 0 sh) :
    sh.store.Exchanges (Shelf.makeRoom.run sh).2.store where
  kept {n p p'} hp hp' := by
    rcases h.pages_makeRoom n with hsame | ⟨-, hnone⟩
    · exact Option.some.inj (hp'.symm.trans (hsame.trans hp))
    · rw [hnone] at hp'
      cases hp'
  left {n p} hp hnone := by
    rcases h.pages_makeRoom n with hsame | ⟨hvictim, -⟩
    · rw [hsame, hp] at hnone
      cases hnone
    · have hevictable := Replacer.evictable_of_victim? h.tracks.counted hvictim
      simpa [h.tracks.seen, hp, Page.seen] using hevictable
  came {n p'} hnone hp' := by
    rcases h.pages_makeRoom n with hsame | ⟨-, hnone'⟩
    · rw [hsame, hnone] at hp'
      cases hp'
    · rw [hnone'] at hp'
      cases hp'

/-- Looking for the page of a key exchanges pages. -/
theorem Sound.exchanges_resolved (h : Sound t primary 0 sh) (key : Entry) :
    sh.store.Exchanges (sh.resolved key primary).store := by
  unfold resolved
  cases hslot : sh.index.get? key with
  | none =>
    rw [h.resolve_none (SortedMap.getKey?_eq_none_iff.2 hslot)]
    exact .refl _
  | some slot =>
    have hfetch : sh.index.fetch key = .ok slot := by simp [Index.fetch, hslot]
    unfold Shelf.resolve
    rw [Action.run_bind_ok (run_getIndex h.live), hfetch, Action.run_bind_ok (Action.run_lift _ _)]
    cases slot with
    | resident row => exact .refl _
    | evicted n =>
      obtain ⟨k, hk, hget⟩ : ∃ k, k.fits t ∧ sh.index.get? k = some (.evicted n) := by
        obtain ⟨hnone, -⟩ | ⟨k, hk, hget, -⟩ := h.get?_index h rfl key
        · simp [hnone] at hslot
        · exact ⟨k, hk, hget ▸ hslot⟩
      obtain ⟨⟨hout, -⟩, -⟩ := h.agree.found hk hget
      obtain ⟨sh₁, hrun, h₁, -, -, -, q, hpinned, hdirty, hpages⟩ := h.resurrect ⟨hk, hget⟩
      have hexchanges : sh.store.Exchanges sh₁.store := by
        have hroom := h.exchanges_makeRoom
        constructor
        · intro m p p' hp hp'
          have hm : m ≠ n := by rintro rfl; simp [hout] at hp
          rw [hpages, if_neg hm] at hp'
          exact hroom.kept hp hp'
        · intro m p hp hnone
          have hm : m ≠ n := by rintro rfl; simp [hout] at hp
          rw [hpages, if_neg hm] at hnone
          exact hroom.left hp hnone
        · intro m p' hnone hp'
          rw [hpages] at hp'
          split at hp'
          · obtain rfl := Option.some.inj hp'
            exact ⟨hpinned, hdirty⟩
          · exact hroom.came hnone hp'
      dsimp only
      rw [Action.run_bind_ok hrun, Action.run_bind_ok (run_getIndex h₁.live)]
      cases hfetch' : sh₁.index.fetch key with
      | error e =>
        rw [Action.run_bind_error (Action.run_lift _ _)]
        exact hexchanges
      | ok slot =>
        rw [Action.run_bind_ok (Action.run_lift _ _)]
        cases slot <;> exact hexchanges

/-! ## Failed calls -/

/-- Pages have been exchanged, and nothing else has happened: every key, row and position, every pin
and the bytes of every page are as before. -/
structure Undisturbed (primary : Nat) (sh sh' : Shelf) : Prop extends
    Moves primary sh sh', Store.Exchanges sh.store sh'.store where
  keys : sh'.store.keys = sh.store.keys
  found : ∀ key, sh'.rowOf primary key = sh.rowOf primary key
  pinned : ∀ n, sh'.store.Pinned n ↔ sh.store.Pinned n
  sizes : ∀ {n p}, sh'.store.pages.get? n = some p → p.size = sh.pageBytes primary n

theorem Sound.undisturbed (h : Sound t primary 0 sh) (h' : Sound t primary 0 sh')
    (hmoves : Moves primary sh sh') (hexchanges : sh.store.Exchanges sh'.store) :
    Undisturbed primary sh sh' where
  toMoves := hmoves
  toExchanges := hexchanges
  keys := by rw [h.store_keys, h'.store_keys, hmoves.rows]
  found key := by rw [h.rowOf_eq, h'.rowOf_eq, hmoves.rows]
  pinned n := hexchanges.pinned_iff n
  sizes hp := by rw [h'.size_eq hp, pageBytes, hmoves.rows, pageBytes]

section Errors

variable {e : Error}

/-- A row that is not added changes nothing. -/
theorem Sound.insertRow_error (h : Sound t primary 0 sh) {entries : List Entry} {pin : Bool}
    (hrun : (Shelf.insertRow entries primary pin).run sh = (.error e, sh')) : sh' = sh := by
  cases hkey : entries[primary]? with
  | none =>
    rw [insertRow_noKey hkey] at hrun
    cases hrun
    rfl
  | some key =>
    cases hin : (sh.rows primary).contains key with
    | true =>
      rw [h.insertRow_duplicate hkey hin] at hrun
      cases hrun
      rfl
    | false =>
      obtain ⟨n, sh₁, hrun₁, h₁, -, hrows, hpage, -⟩ := h.pageFor (Row.byteSize { entries := entries })
      obtain ⟨p, hp⟩ := Option.isSome_iff_exists.1 hpage
      have hnone : sh₁.index.get? key = none := by
        rw [← SortedMap.contains_eq_false_iff, contains_rows primary, hrows, hin]
      rw [← contains_rows primary] at hin
      rw [run_insertRow h.live hkey hin hrun₁ h₁.live hnone hp] at hrun
      cases hrun

/-- A page that is not added changes nothing. -/
theorem Sound.insertPage_eq_error (h : Sound t primary 0 sh) {rows : List Row}
    (hfits : ∀ r ∈ rows, ∀ key, r.entries[primary]? = some key → key.fits t)
    (hrun : (Shelf.insertPage rows primary).run sh = (.error e, sh')) : sh' = sh := by
  by_cases hfresh : Fresh t primary sh.index rows
  · obtain ⟨page, -, -, -, hrun₁⟩ := h.run_insertPage hfresh
    rw [hrun₁] at hrun
    split at hrun <;> cases hrun
  · obtain ⟨e', hrun₁⟩ := h.insertPage_error hfits hfresh
    rw [hrun₁] at hrun
    cases hrun
    rfl

/-- A row that is not deleted was not there. -/
theorem Sound.deleteRow_error (h : Sound t primary 0 sh) {key : Entry} {pin : Bool}
    (hrun : (Shelf.deleteRow key primary pin).run sh = (.error e, sh')) : sh' = sh := by
  cases hrow : (sh.rows primary).get? key with
  | none =>
    rw [h.deleteRow_notFound hrow] at hrun
    cases hrun
    rfl
  | some row =>
    obtain ⟨p, sh₁, hrun₁, h₁, -, hget, hp⟩ := h.find hrow
    rw [run_deleteRow hrun₁ h₁.live hget hp] at hrun
    cases hrun

theorem Sound.getRow_error (h : Sound t primary 0 sh) {key : Entry}
    (hrun : (Shelf.getRow key primary).run sh = (.error e, sh')) : sh' = sh := by
  cases hrow : (sh.rows primary).get? key with
  | none =>
    rw [h.getRow_notFound hrow] at hrun
    cases hrun
    rfl
  | some row =>
    obtain ⟨sh₁, hrun₁, -⟩ := h.getRow hrow
    cases hrun₁.symm.trans hrun

/-- A row that is not changed may have been looked for. -/
theorem Sound.updateRow_error (h : Sound t primary 0 sh) {key : Entry} (hkey : key.fits t)
    {targets : List Nat} {values : List Entry}
    (hvalues : ∀ v, (primary, v) ∈ targets.zip values → v.fits t) {pin : Bool}
    (hrun : (Shelf.updateRow key primary targets values pin).run sh = (.error e, sh')) :
    Undisturbed primary sh sh' := by
  rcases h.updateRow_cases key targets values pin with ⟨e₁, sh₁, hrun₁, h₁, hmoves, hresolved⟩ |
    ⟨row, newKey, hlength, hrow, hassigned, hcolumns⟩
  · cases hrun₁.symm.trans hrun
    refine h.undisturbed h₁ hmoves ?_
    obtain rfl | rfl := hresolved
    · exact .refl _
    · exact h.exchanges_resolved key
  -- once the values are accepted nothing fails any more
  have hok : ∃ sh₁, (Shelf.updateRow key primary targets values pin).run sh = (.ok (), sh₁) := by
    by_cases hreturns : Returns key primary (targets.zip values)
    · obtain ⟨sh₁, hrun₁, -⟩ :=
        h.updateRow_strays hkey hrow hlength hvalues hreturns hassigned hcolumns rfl pin
      exact ⟨sh₁, hrun₁⟩
    · obtain ⟨sh₁, hrun₁, -⟩ :=
        h.updateRow_straight hkey hrow hlength hvalues hreturns hassigned hcolumns rfl pin
      exact ⟨sh₁, hrun₁⟩
  obtain ⟨sh₁, hrun₁⟩ := hok
  cases hrun₁.symm.trans hrun

end Errors

end Shelf

/-- In every reachable state, a call that fails to add a row or a page, or to delete or get a row, has
changed nothing at all, and one that fails to update a row has at most exchanged pages. -/
theorem unchanged_of_error {sh : Shelf} (h : Reachable t primary sh) {e : Error} {sh' : Shelf} :
    (∀ entries pin, (Shelf.insertRow entries primary pin).run sh = (.error e, sh') → sh' = sh) ∧
    (∀ rows, (∀ r ∈ rows, ∀ key, r.entries[primary]? = some key → key.fits t) →
      (Shelf.insertPage rows primary).run sh = (.error e, sh') → sh' = sh) ∧
    (∀ key pin, (Shelf.deleteRow key primary pin).run sh = (.error e, sh') → sh' = sh) ∧
    (∀ key, (Shelf.getRow key primary).run sh = (.error e, sh') → sh' = sh) ∧
    ∀ key targets values pin, key.fits t → (∀ v, (primary, v) ∈ targets.zip values → v.fits t) →
      (Shelf.updateRow key primary targets values pin).run sh = (.error e, sh') →
      Shelf.Undisturbed primary sh sh' :=
  ⟨fun _ _ hrun => h.sound.insertRow_error hrun,
    fun _ hfits hrun => h.sound.insertPage_eq_error hfits hrun,
    fun _ _ hrun => h.sound.deleteRow_error hrun, fun _ hrun => h.sound.getRow_error hrun,
    fun _ _ _ _ hkey hvalues hrun => h.sound.updateRow_error hkey hvalues hrun⟩

/-- The row that cannot be changed is on a page that has left memory, and takes the place of the
other page. -/
theorem unchanged_of_error_twoPages :
    ((Shelf.insertRow [.int 2] 0 true).run twoPages).2 = twoPages ∧
      ((Shelf.insertPage [⟨[.int 3], 0⟩, ⟨[.int 3], 0⟩] 0).run twoPages).2 = twoPages ∧
      ((Shelf.deleteRow (.int 3) 0 true).run twoPages).2 = twoPages ∧
      ((Shelf.getRow (.int 3) 0).run twoPages).2 = twoPages ∧
      ¬ (twoPages.store.pages.get? 1).isSome ∧
      let outcome := (Shelf.updateRow (.int 1) 0 [0] [.int 2] true).run twoPages
      (outcome.2.store.pages.get? 1).isSome ∧ Shelf.Undisturbed 0 twoPages outcome.2 := by
  have hfails {α : Type} {r : Result α × Shelf} (hr : r.1.isOk = false) : ∃ e, r = (.error e, r.2) := by
    rcases r with ⟨e | a, sh'⟩
    · exact ⟨e, rfl⟩
    · cases hr
  obtain ⟨_, hinsert⟩ := @hfails _ ((Shelf.insertRow [.int 2] 0 true).run twoPages) (by decide +kernel)
  obtain ⟨_, hload⟩ := @hfails _ ((Shelf.insertPage [⟨[.int 3], 0⟩, ⟨[.int 3], 0⟩] 0).run twoPages)
    (by decide +kernel)
  obtain ⟨_, hdelete⟩ := @hfails _ ((Shelf.deleteRow (.int 3) 0 true).run twoPages)
    (by decide +kernel)
  obtain ⟨_, hget⟩ := @hfails _ ((Shelf.getRow (.int 3) 0).run twoPages) (by decide +kernel)
  obtain ⟨_, hupdate⟩ := @hfails _ ((Shelf.updateRow (.int 1) 0 [0] [.int 2] true).run twoPages)
    (by decide +kernel)
  have h := @unchanged_of_error _ _ _ reachable_twoPages
  exact ⟨h.1 _ _ hinsert, h.2.1 _ (by simp [Entry.fits, Entry.type?]) hload, h.2.2.1 _ _ hdelete,
    h.2.2.2.1 _ hget, by decide +kernel, by decide +kernel,
    h.2.2.2.2 _ _ _ _ (by decide) (by simp [Entry.fits, Entry.type?]) hupdate⟩

end PageDb
