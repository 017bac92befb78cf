import PageDb.Proofs.Store.Residency

/-!
Writing all pages and unpinning all pages change no row.

After `Shelf.persist` has answered, every page in memory is in its file.
-/

namespace PageDb

namespace Shelf

variable {t : ColumnType} {primary exempt : Nat} {sh : Shelf}

/-- Pages in memory are written one after the other, up to the first that cannot be. -/
theorem Sound.writePages (h : Sound t primary exempt sh) {pages : List Page}
    (hpages : ∀ p ∈ pages, sh.store.pages.get? p.number = some p) :
    ∃ r sh', (Shelf.writePages pages).run sh = (r, sh') ∧ Sound t primary exempt sh' ∧
      Moves primary sh sh' ∧ sh'.store = sh.store ∧
      (∀ m, (∀ p ∈ pages, p.number ≠ m) → sh'.image? m = sh.image? m) ∧
      (r = .ok () → ∀ p ∈ pages, Matches sh.index sh'.stored? p.number p ∧ sh'.Filed p.number) := by
  induction pages generalizing sh with
  | nil => exact ⟨_, _, rfl, h, .refl sh, rfl, fun _ _ => rfl, by simp⟩
  | cons p rest ih =>
    obtain ⟨r, sh₁, hrun, h₁, hmoves₁, hstore₁, hothers₁, hwritten₁⟩ := h.writePage (hpages p (by simp))
    unfold Shelf.writePages
    cases r with
    | error e =>
      refine ⟨.error e, sh₁, by rw [Action.run_bind_error hrun], h₁, hmoves₁, hstore₁, ?_, by simp⟩
      intro m hm
      exact hothers₁ m (Ne.symm (hm p (by simp)))
    | ok u =>
      have hindex : sh₁.index = sh.index := by rw [index, hstore₁, index]
      obtain ⟨r, sh₂, hrun₂, h₂, hmoves₂, hstore₂, hothers₂, hwritten₂⟩ :=
        ih h₁ fun q hq => by rw [hstore₁]; exact hpages q (by simp [hq])
      refine ⟨r, sh₂, by rw [Action.run_bind_ok hrun, hrun₂], h₂, hmoves₁.trans hmoves₂,
        hstore₂.trans hstore₁, ?_, ?_⟩
      · intro m hm
        rw [hothers₂ m fun q hq => hm q (by simp [hq]), hothers₁ m (Ne.symm (hm p (by simp)))]
      · intro hr q hq
        by_cases hrest : q ∈ rest
        · rw [← hindex]
          exact hwritten₂ hr q hrest
        · obtain rfl : q = p := by simpa [hrest] using hq
          -- no later page has the number of this one
          have himage : sh₂.image? q.number = sh₁.image? q.number := by
            refine hothers₂ q.number fun p' hp' hnumber => ?_
            have hget := hpages p' (by simp [hp'])
            rw [hnumber, hpages q (by simp)] at hget
            simp only [Option.some.injEq] at hget
            exact hrest (hget ▸ hp')
          rw [Matches, stored?_congr himage, Filed, himage]
          exact hwritten₁ rfl

/-- Writing all pages either fails, or every page in memory is in its file. -/
theorem Sound.persist (h : Sound t primary exempt sh) :
    ∃ r sh', Shelf.persist.run sh = (r, sh') ∧ Sound t primary exempt sh' ∧ Moves primary sh sh' ∧
      ∀ count, r = .ok count → ∀ n p, sh'.store.pages.get? n = some p →
        Matches sh'.index sh'.stored? n p ∧ sh'.Filed n := by
  have hvalues : ∀ p ∈ sh.store.pages.values, sh.store.pages.get? p.number = some p := by
    intro p hp
    obtain ⟨⟨n, q⟩, hmem, rfl⟩ := List.mem_map.1 hp
    have hget := (SortedMap.mem_toList_iff h.pages).1 hmem
    rwa [(h.agree.inMemory hget).number]
  obtain ⟨r, sh₁, hrun, h₁, hmoves₁, hstore₁, -, hwritten⟩ := h.writePages hvalues
  unfold Shelf.persist
  rw [Action.run_bind_ok (run_getStore sh), h.liveIndex, Action.run_bind_ok (Action.run_lift _ _)]
  cases r with
  | error e =>
    exact ⟨.error e, sh₁, by rw [Action.run_bind_error hrun], h₁, hmoves₁, by simp⟩
  | ok u =>
    rw [Action.run_bind_ok hrun, Action.run_bind_ok (run_modifyStore _ _)]
    have hindex : sh₁.index = sh.index := by rw [index, hstore₁, index]
    have hstored {n : Nat} {p : Page} (hp : sh₁.store.pages.get? n = some p) :
        Matches sh₁.index sh₁.stored? n p ∧ sh₁.Filed n := by
      rw [hstore₁] at hp
      have hmem := (SortedMap.mem_toList_iff h.pages).2 hp
      have hin := hwritten rfl p (List.mem_map.2 ⟨_, hmem, rfl⟩)
      rwa [(h.agree.inMemory hp).number, ← hindex] at hin
    have hget (n : Nat) := sh₁.store.pages.get?_mapValues (fun p => { p with dirty := false }) n
    obtain ⟨hsound, hmoves⟩ := h₁.remark (s := { sh₁.store with
        pages := sh₁.store.pages.mapValues fun p => { p with dirty := false } })
      ⟨rfl, rfl, rfl, rfl, rfl, rfl⟩ (h₁.pages.mapValues _)
      ⟨h₁.tracks.counted, fun n => by
        rw [h₁.tracks.seen, hget, Option.map_map]
        rfl⟩
      (fun n hn => by rw [hget, hn]; rfl)
      fun n p hp => ⟨{ p with dirty := false }, by rw [hget, hp]; rfl, rfl, rfl, rfl,
        .inr (hstored hp)⟩
    refine ⟨_, _, rfl, hsound, hmoves₁.trans hmoves, ?_⟩
    rintro count - n p hp
    rw [hget, Option.map_eq_some_iff] at hp
    obtain ⟨q, hq, rfl⟩ := hp
    have hrows := hstored hq
    exact hrows

/-- Unpinning a page moves none. -/
theorem Sound.unpinPage (h : Sound t primary exempt sh) (n : Nat) :
    Sound t primary exempt { sh with store := sh.store.unpinPage n } ∧
      Moves primary sh { sh with store := sh.store.unpinPage n } := by
  have hget (m : Nat) := sh.store.pages.get?_modify_eq n m fun p => { p with pinned := false }
  refine h.remark ⟨rfl, rfl, rfl, rfl, rfl, rfl⟩ (h.pages.modify n _) (h.tracks.unpinPage n)
    (fun m hm => ?_) fun m p hp => ?_
  · show (sh.store.pages.modify n _).get? m = none
    rw [hget, hm]
    split <;> rfl
  · by_cases hm : m = n
    · refine ⟨{ p with pinned := false }, ?_, rfl, rfl, rfl, .inl rfl⟩
      show (sh.store.pages.modify n _).get? m = _
      rw [hget, if_pos hm, hp]
      rfl
    · refine ⟨p, ?_, rfl, rfl, rfl, .inl rfl⟩
      show (sh.store.pages.modify n _).get? m = _
      rw [hget, if_neg hm, hp]

/-- Unpinning all pages moves none. -/
theorem Sound.unpin (h : Sound t primary exempt sh) :
    Sound t primary exempt { sh with store := sh.store.unpin } ∧
      Moves primary sh { sh with store := sh.store.unpin } := by
  unfold Store.unpin
  generalize (sh.store.pages.values.filter Page.pinned).map Page.number = numbers
  induction numbers generalizing sh with
  | nil => exact ⟨h, .refl sh⟩
  | cons n rest ih =>
    obtain ⟨hpage, hmoves⟩ := h.unpinPage n
    obtain ⟨hsound, hmoves'⟩ := ih hpage
    exact ⟨hsound, hmoves.trans hmoves'⟩

end Shelf

end PageDb
