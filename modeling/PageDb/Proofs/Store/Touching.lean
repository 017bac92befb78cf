import PageDb.Proofs.Store.Pinning

/-!
The pages that a change of rows touches.

`changedPages` compares two sets of rows and lists the pages of those that are not in both.  Adding,
deleting and changing rows with pinning leaves every such page pinned, whether the operation fails or
not.
-/

namespace PageDb

/-- The pages of the rows that were added, removed or changed. -/
def changedPages (rows rows' : SortedMap Entry Row) : List Nat :=
  (rows.toList.filter (fun b => b ∉ rows'.toList) ++
    rows'.toList.filter fun b => b ∉ rows.toList).map fun b => b.2.position

namespace SortedMap

variable {κ ν : Type} [Ord κ] {key : κ} {bindings : List (κ × ν)} {b : κ × ν}

/-- A binding that is erased is that of the key. -/
theorem mem_eraseFrom_or (key : κ) (h : b ∈ bindings) :
    b ∈ eraseFrom key bindings ∨ find? key bindings = some b := by
  induction bindings with
  | nil => cases h
  | cons c rest ih =>
    obtain ⟨k, v⟩ := c
    simp only [eraseFrom, find?]
    cases compare key k with
    | lt => exact .inl h
    | eq =>
      rcases List.mem_cons.1 h with rfl | h
      · exact .inr rfl
      · exact .inl h
    | gt =>
      rcases List.mem_cons.1 h with rfl | h
      · exact .inl List.mem_cons_self
      · exact (ih h).imp_left (List.mem_cons_of_mem _)

/-- A binding whose value is changed is that of the key. -/
theorem mem_modifyIn_or (key : κ) (f : ν → ν) (h : b ∈ bindings) :
    b ∈ modifyIn key f bindings ∨ find? key bindings = some b := by
  induction bindings with
  | nil => cases h
  | cons c rest ih =>
    obtain ⟨k, v⟩ := c
    simp only [modifyIn, find?]
    cases compare key k with
    | lt => exact .inl h
    | eq =>
      rcases List.mem_cons.1 h with rfl | h
      · exact .inr rfl
      · exact .inl (List.mem_cons_of_mem _ h)
    | gt =>
      rcases List.mem_cons.1 h with rfl | h
      · exact .inl List.mem_cons_self
      · exact (ih h).imp_left (List.mem_cons_of_mem _)

end SortedMap

section ChangedPages

variable {rows rows' rows'' : SortedMap Entry Row} {key : Entry} {row : Row} {page : Nat}

theorem mem_changedPages_iff :
    page ∈ changedPages rows rows' ↔ ∃ b, b.2.position = page ∧
      (b ∈ rows.toList ∧ b ∉ rows'.toList ∨ b ∈ rows'.toList ∧ b ∉ rows.toList) := by
  simp only [changedPages, List.mem_map, List.mem_append, List.mem_filter, decide_eq_true_eq]
  exact ⟨fun ⟨b, hb, hpage⟩ => ⟨b, hpage, hb⟩, fun ⟨b, hpage, hb⟩ => ⟨b, hb, hpage⟩⟩

/-- Rows on other pages are in both. -/
theorem mem_iff_of_not_mem_changedPages {b : Entry × Row}
    (h : b.2.position ∉ changedPages rows rows') : b ∈ rows'.toList ↔ b ∈ rows.toList := by
  rw [mem_changedPages_iff] at h
  constructor
  · exact fun hb => Classical.not_not.1 fun hnot => h ⟨b, rfl, .inr ⟨hb, hnot⟩⟩
  · exact fun hb => Classical.not_not.1 fun hnot => h ⟨b, rfl, .inl ⟨hb, hnot⟩⟩

theorem not_mem_changedPages_self (page : Nat) : page ∉ changedPages rows rows := by
  intro h
  obtain ⟨b, -, hb | hb⟩ := mem_changedPages_iff.1 h
  · exact hb.2 hb.1
  · exact hb.2 hb.1

/-- What two changes touch together one of them touches. -/
theorem mem_changedPages_or (rows' : SortedMap Entry Row) (h : page ∈ changedPages rows rows'') :
    page ∈ changedPages rows rows' ∨ page ∈ changedPages rows' rows'' := by
  obtain ⟨b, hpage, hb⟩ := mem_changedPages_iff.1 h
  simp only [mem_changedPages_iff]
  by_cases hmid : b ∈ rows'.toList
  · rcases hb with hb | hb
    · exact .inr ⟨b, hpage, .inl ⟨hmid, hb.2⟩⟩
    · exact .inl ⟨b, hpage, .inr ⟨hmid, hb.2⟩⟩
  · rcases hb with hb | hb
    · exact .inl ⟨b, hpage, .inl ⟨hb.1, hmid⟩⟩
    · exact .inr ⟨b, hpage, .inr ⟨hb.1, hmid⟩⟩

theorem eq_of_mem_changedPages_insert (hnew : rows.get? key = none)
    (h : page ∈ changedPages rows (rows.insert key row)) : row.position = page := by
  have hnone := Option.map_eq_none_iff.1 hnew
  obtain ⟨b, rfl, ⟨hb, hnot⟩ | ⟨hb, hnot⟩⟩ := mem_changedPages_iff.1 h
  · exact absurd ((SortedMap.mem_insertInto_of_new hnone).2 (.inr hb)) hnot
  · rcases (SortedMap.mem_insertInto_of_new hnone).1 hb with rfl | hold
    · rfl
    · exact absurd hold hnot

theorem eq_of_mem_changedPages_erase (hrow : rows.get? key = some row)
    (h : page ∈ changedPages rows (rows.erase key)) : row.position = page := by
  obtain ⟨b, rfl, ⟨hb, hnot⟩ | ⟨hb, hnot⟩⟩ := mem_changedPages_iff.1 h
  · have hfound := (SortedMap.mem_eraseFrom_or key hb).resolve_left hnot
    rw [SortedMap.get?, hfound] at hrow
    rw [← Option.some.inj hrow]
  · exact absurd ((SortedMap.eraseFrom_sublist key _).subset hb) hnot

theorem eq_of_mem_changedPages_modify (hrow : rows.get? key = some row) {changed : Row}
    (hposition : changed.position = row.position)
    (h : page ∈ changedPages rows (rows.modify key fun _ => changed)) : row.position = page := by
  obtain ⟨b, rfl, ⟨hb, hnot⟩ | ⟨hb, hnot⟩⟩ := mem_changedPages_iff.1 h
  · have hfound := (SortedMap.mem_modifyIn_or key (fun _ => changed) hb).resolve_left hnot
    rw [SortedMap.get?, hfound] at hrow
    rw [← Option.some.inj hrow]
  · rcases SortedMap.mem_modifyIn hb with hold | ⟨old, -, hvalue, -⟩
    · exact absurd hold hnot
    · rw [hvalue, hposition]

end ChangedPages

namespace Shelf

variable {t : ColumnType} {primary page : Nat} {sh sh' : Shelf} {key : Entry} {row : Row}
  {r : Result Unit}

/-- A change of the key or the entries of a row touches the page of the row. -/
theorem Sound.eq_of_mem_changedPages_changedRows (h : Sound t primary 0 sh) (hkey : key.fits t)
    (hrow : (sh.rows primary).get? key = some row) {changed : Row}
    (hposition : changed.position = row.position) (hfits : (changed.keyAt primary).fits t)
    (hfree : (changed.keyAt primary).same key = true ∨
      (sh.rows primary).get? (changed.keyAt primary) = none)
    (hpage : page ∈ changedPages (sh.rows primary)
      (changedRows primary (sh.rows primary) key changed)) : row.position = page := by
  unfold changedRows at hpage
  split at hpage
  · exact eq_of_mem_changedPages_modify hrow hposition hpage
  · rename_i hother
    rcases mem_changedPages_or ((sh.rows primary).erase key) hpage with herase | hinsert
    · exact eq_of_mem_changedPages_erase hrow herase
    · have hnew : ((sh.rows primary).erase key).get? (changed.keyAt primary) = none := by
        have hascending : (sh.rows primary).Ascending (Entry.fits t) := h.agree.ascending_contentsOf
        exact SortedMap.get?_erase_eq_none (Entry.orderedOn_fits t) hascending hkey hfits
          (hfree.resolve_left hother)
      exact hposition ▸ eq_of_mem_changedPages_insert hnew hinsert

/-- An added row touches its page only, and that page is pinned. -/
theorem Sound.pinned_insertRow (h : Sound t primary 0 sh) {entries : List Entry}
    (hkey : entries[primary]? = some key) (hfits : key.fits t)
    (hrun : (Shelf.insertRow entries primary true).run sh = (r, sh'))
    (hpage : page ∈ changedPages (sh.rows primary) (sh'.rows primary)) : sh'.store.Pinned page := by
  cases hin : (sh.rows primary).contains key with
  | true =>
    rw [h.insertRow_duplicate hkey hin true] at hrun
    cases hrun
    exact absurd hpage (not_mem_changedPages_self page)
  | false =>
    obtain ⟨n, sh₁, hrun₁, -, -, hrows, -, hpinned⟩ := h.insertRow hkey hfits hin true
    cases hrun₁.symm.trans hrun
    rw [hrows] at hpage
    rw [← eq_of_mem_changedPages_insert (SortedMap.contains_eq_false_iff.1 hin) hpage]
    exact hpinned rfl

/-- A deleted row touches its page only, and that page is pinned. -/
theorem Sound.pinned_deleteRow (h : Sound t primary 0 sh) (hkey : key.fits t)
    (hrun : (Shelf.deleteRow key primary true).run sh = (r, sh'))
    (hpage : page ∈ changedPages (sh.rows primary) (sh'.rows primary)) : sh'.store.Pinned page := by
  cases hrow : (sh.rows primary).get? key with
  | none =>
    rw [h.deleteRow_notFound hrow true] at hrun
    cases hrun
    exact absurd hpage (not_mem_changedPages_self page)
  | some row =>
    obtain ⟨sh₁, hrun₁, -, -, -, hrows, hpinned⟩ := h.deleteRow hkey hrow true
    cases hrun₁.symm.trans hrun
    rw [hrows] at hpage
    rw [← eq_of_mem_changedPages_erase hrow hpage]
    exact hpinned rfl

/-- A changed row touches its page only, and that page is pinned.  If the change succeeds the page is
pinned even if the row has the same entries as before. -/
theorem Sound.pinned_updateRow (h : Sound t primary 0 sh) (hkey : key.fits t) {targets : List Nat}
    {values : List Entry} (hdistinct : targets.Nodup)
    (hvalues : ∀ v, (primary, v) ∈ targets.zip values → v.fits t)
    (hrun : (Shelf.updateRow key primary targets values true).run sh = (r, sh')) :
    (∀ page ∈ changedPages (sh.rows primary) (sh'.rows primary), sh'.store.Pinned page) ∧
      (r = .ok () → ∃ row, (sh.rows primary).get? key = some row ∧ sh'.store.Pinned row.position) := by
  -- an update that fails leaves the rows as they are
  have hrefused {e : Error} {sh₁ : Shelf} {Q : Prop}
      (hrun₁ : (Shelf.updateRow key primary targets values true).run sh = (.error e, sh₁))
      (hrows : sh₁.rows primary = sh.rows primary) :
      (∀ page ∈ changedPages (sh.rows primary) (sh'.rows primary), sh'.store.Pinned page) ∧
        (r = .ok () → Q) := by
    cases hrun₁.symm.trans hrun
    refine ⟨fun page hpage => ?_, nofun⟩
    rw [hrows] at hpage
    exact absurd hpage (not_mem_changedPages_self page)
  by_cases hlength : targets.length = values.length
  case neg => exact hrefused (updateRow_length hlength true sh) rfl
  cases hrow : (sh.rows primary).get? key with
  | none => exact hrefused (h.updateRow_notFound hrow hlength true) rfl
  | some row =>
    obtain ⟨changed, hchanged⟩ : ∃ changed : Row,
      changed = { row with entries := assign row.entries (targets.zip values) } := ⟨_, rfl⟩
    have hkeyed : row.Keyed t primary := (h.agree.keyed_of_get?_contentsOf hkey hrow).1
    by_cases hduplicate : (changed.keyAt primary).same key = false ∧
        (sh.rows primary).contains (changed.keyAt primary) = true
    case pos =>
      obtain ⟨sh₁, hrun₁, -, hmoves⟩ := h.updateRow_duplicate hkey hrow hdistinct hlength hvalues
        hchanged hduplicate.1 hduplicate.2 true
      exact hrefused hrun₁ hmoves.rows
    have hfree : (changed.keyAt primary).same key = true ∨
        (sh.rows primary).contains (changed.keyAt primary) = false := by
      cases hsame : (changed.keyAt primary).same key with
      | true => exact .inl rfl
      | false => exact .inr (Bool.eq_false_iff.2 fun hin => hduplicate ⟨hsame, hin⟩)
    cases hcolumn : targets.find? fun column => decide (row.entries.length ≤ column) with
    | some column =>
      obtain ⟨sh₁, hrun₁, -, hmoves⟩ := h.updateRow_noColumn hkey hrow hdistinct hlength hvalues
        hchanged hfree hcolumn true
      exact hrefused hrun₁ hmoves.rows
    | none =>
      obtain ⟨sh₁, hrun₁, -, -, -, hrows, hpinned⟩ := h.updateRow hkey hrow hdistinct hlength
        hvalues hchanged hfree hcolumn true
      cases hrun₁.symm.trans hrun
      refine ⟨fun page hpage => ?_, fun _ => ⟨row, rfl, hpinned rfl⟩⟩
      have hposition : changed.position = row.position := by rw [hchanged]
      rw [hrows] at hpage
      rw [← h.eq_of_mem_changedPages_changedRows hkey hrow hposition
        (keyed_assign hkeyed hvalues hchanged).fits
        (hfree.imp_right SortedMap.contains_eq_false_iff.1) hpage]
      exact hpinned rfl

end Shelf

end PageDb
