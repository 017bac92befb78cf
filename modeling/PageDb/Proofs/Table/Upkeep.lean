import PageDb.Proofs.Store.Persistence
import PageDb.Proofs.Table.Fitting

/-!
What the operations on rows do to a shelf whose rows fit a schema.

`Shelf.Advances` is kept by every one of them: the shelf stays sound, a page that is opened will have
a file before it leaves memory, and every row still fits the schema and is found under its own key.
-/

namespace PageDb

section Fits

variable {s : Schema} {row : Row}

/-- The key of a row that fits is a value of the primary column. -/
theorem Row.Fits.primary (h : row.Fits s) (hs : s.Proper) :
    row.Keyed s.primaryColumn.type s.primaryIndex ∧ (row.keyAt s.primaryIndex).Quiet := by
  have hlt := h.primaryIndex_lt hs
  obtain ⟨-, hadmits⟩ := forall₂_iff_getElem?.1 h
  obtain ⟨c, hc, -⟩ := hs
  have hentry := List.getElem?_eq_getElem hlt
  have hcolumn := hadmits s.primaryIndex c _ hc hentry
  refine ⟨⟨_, hentry, ?_⟩, ?_⟩
  · rw [Schema.primaryColumn, hc]
    exact hcolumn.fits
  · rw [Row.keyAt, hentry]
    exact hcolumn.quiet

/-- Of two rows that fit, the same key is an equal key. -/
theorem Row.Fits.keyAt_eq {row' : Row} (h : row.Fits s) (h' : row'.Fits s) (hs : s.Proper)
    (hsame : (row.keyAt s.primaryIndex).same (row'.keyAt s.primaryIndex) = true) :
    row.keyAt s.primaryIndex = row'.keyAt s.primaryIndex := by
  obtain ⟨hkeyed, hquiet⟩ := h.primary hs
  obtain ⟨hkeyed', hquiet'⟩ := h'.primary hs
  exact Entry.eq_of_same hkeyed.fits hkeyed'.fits hquiet hquiet' hsame

/-- What is assigned to the primary column is a key. -/
theorem Schema.Proper.fits_of_admits (hs : s.Proper) {assignments : List (Nat × Entry)}
    (hadmits : ∀ a ∈ assignments, ∀ c, s.columns[a.1]? = some c → c.Admits a.2) :
    ∀ v, (s.primaryIndex, v) ∈ assignments → v.fits s.primaryColumn.type := by
  intro v hv
  obtain ⟨c, hc, -⟩ := hs
  rw [Schema.primaryColumn, hc]
  exact (hadmits _ hv c hc).fits

theorem Schema.Proper.fits_of_admits_one (hs : s.Proper) {column : Nat} {value : Entry}
    (hadmits : ∀ c, s.columns[column]? = some c → c.Admits value) :
    ∀ v, (s.primaryIndex, v) ∈ [column].zip [value] → v.fits s.primaryColumn.type :=
  hs.fits_of_admits (by simpa using hadmits)

/-- Assigning to columns what they admit keeps a row fitting. -/
theorem Row.Fits.assign (h : row.Fits s) {assignments : List (Nat × Entry)}
    (hadmits : ∀ a ∈ assignments, ∀ c, s.columns[a.1]? = some c → c.Admits a.2) :
    List.Forall₂ Column.Admits s.columns (Shelf.assign row.entries assignments) := by
  unfold Row.Fits at h
  generalize row.entries = entries at h
  induction assignments generalizing entries with
  | nil => exact h
  | cons a rest ih =>
    refine ih (fun b hb => hadmits b (by simp [hb])) (entries.set a.1 a.2) ?_
    obtain ⟨hlength, hcolumns⟩ := forall₂_iff_getElem?.1 h
    refine forall₂_iff_getElem?.2 ⟨by rw [hlength, List.length_set], fun k c e hc he => ?_⟩
    rw [List.getElem?_set] at he
    split at he
    · rename_i heq
      split at he
      · obtain rfl : a.2 = e := by simpa using he
        exact hadmits a (by simp) c (heq ▸ hc)
      · cases he
    · exact hcolumns k c e hc he

end Fits

namespace Shelf

/-- What an operation on rows does to a shelf. -/
structure Advances (s : Schema) (sh sh' : Shelf) : Prop where
  sound : Sound s.primaryColumn.type s.primaryIndex 0 sh'
  frame : Frame sh sh'
  opened : ∀ n, sh.store.lastPage < n → n ≤ sh'.store.lastPage → sh'.Safe n
  binds : ∀ b ∈ (sh'.rows s.primaryIndex).toList, s.Binds b

/-- The rows of a shelf fit the schema. -/
def Binds (s : Schema) (sh : Shelf) : Prop := ∀ b ∈ (sh.rows s.primaryIndex).toList, s.Binds b

variable {s : Schema} {sh sh' : Shelf}

/-- Moving pages is such an operation. -/
theorem Moves.advances (h : Moves s.primaryIndex sh sh')
    (hsound : Sound s.primaryColumn.type s.primaryIndex 0 sh') (hbinds : sh.Binds s) :
    Advances s sh sh' where
  sound := hsound
  frame := h.toFrame
  opened n hn hle := by
    rw [h.lastPage] at hle
    omega
  binds := by rwa [h.rows]

variable (h : Sound s.primaryColumn.type s.primaryIndex 0 sh) (hbinds : sh.Binds s)

include h hbinds

theorem Sound.advances_self : Advances s sh sh := (Moves.refl sh).advances h hbinds

theorem Sound.advances_insertRow (hs : s.Proper) {entries : List Entry}
    (hfits : List.Forall₂ Column.Admits s.columns entries) (pin : Bool) :
    ∃ r sh', (Shelf.insertRow entries s.primaryIndex pin).run sh = (r, sh') ∧ Advances s sh sh' := by
  have hrow (n : Nat) : Row.Fits ⟨entries, n⟩ s := hfits
  obtain ⟨⟨key, hkey, hkeyfits⟩, -⟩ := (hrow 0).primary hs
  cases hin : (sh.rows s.primaryIndex).contains key with
  | true => exact ⟨_, sh, h.insertRow_duplicate hkey hin pin, h.advances_self hbinds⟩
  | false =>
    obtain ⟨n, sh', hrun, hsound, hframe, hrows, hopened, -⟩ := h.insertRow hkey hkeyfits hin pin
    refine ⟨_, sh', hrun, hsound, hframe, hopened, fun b hb => ?_⟩
    have hnew := Option.map_eq_none_iff.1 (SortedMap.contains_eq_false_iff.1 hin)
    rw [hrows] at hb
    rcases (SortedMap.mem_insertInto_of_new hnew).1 hb with rfl | hold
    · exact ⟨hrow n, by rw [Row.keyAt, hkey, Option.getD_some]⟩
    · exact hbinds b hold

theorem Sound.advances_deleteRow {key : Entry} (hkey : key.fits s.primaryColumn.type) (pin : Bool) :
    ∃ r sh', (Shelf.deleteRow key s.primaryIndex pin).run sh = (r, sh') ∧ Advances s sh sh' := by
  cases hrow : (sh.rows s.primaryIndex).get? key with
  | none => exact ⟨_, sh, h.deleteRow_notFound hrow pin, h.advances_self hbinds⟩
  | some row =>
    obtain ⟨sh', hrun, hsound, hframe, hlast, hrows, -⟩ := h.deleteRow hkey hrow pin
    refine ⟨_, sh', hrun, hsound, hframe, fun n hn hle => by omega, fun b hb => ?_⟩
    rw [hrows] at hb
    exact hbinds b ((SortedMap.eraseFrom_sublist key _).subset hb)

/-- The rows after one of them has changed to one that fits. -/
theorem Sound.binds_changedRows (hs : s.Proper) {key : Entry} (hkey : key.fits s.primaryColumn.type)
    {changed : Row} (hchanged : changed.Fits s)
    (hfree : (changed.keyAt s.primaryIndex).same key = true ∨
      (sh.rows s.primaryIndex).contains (changed.keyAt s.primaryIndex) = false) :
    ∀ b ∈ (changedRows s.primaryIndex (sh.rows s.primaryIndex) key changed).toList, s.Binds b := by
  have hP := Entry.orderedOn_fits s.primaryColumn.type
  have hascending : (sh.rows s.primaryIndex).Ascending (Entry.fits s.primaryColumn.type) :=
    h.agree.ascending_contentsOf
  obtain ⟨hkeyed, -⟩ := hchanged.primary hs
  intro b hb
  unfold changedRows at hb
  split at hb
  · rename_i hsame
    rcases SortedMap.mem_modifyIn hb with hold | ⟨row, hold, hb, hcompare⟩
    · exact hbinds b hold
    · -- the old row is found under its own key, which is that of the new one
      have hbound := hbinds _ hold
      have hfits := hascending.holds _ hold
      refine ⟨hb ▸ hchanged, ?_⟩
      rw [hb, show b.1 = row.keyAt s.primaryIndex from hbound.key]
      refine hbound.fits.keyAt_eq hchanged hs ?_
      rw [← show b.1 = row.keyAt s.primaryIndex from hbound.key, Entry.same_comm hfits hkeyed.fits,
        ← Entry.same_congr_right hkeyed.fits hkey hfits (Entry.same_iff.2 hcompare)]
      exact hsame
  · rename_i hother
    have hnew : ((sh.rows s.primaryIndex).erase key).get? (changed.keyAt s.primaryIndex) = none :=
      SortedMap.get?_erase_eq_none hP hascending hkey hkeyed.fits
        (SortedMap.contains_eq_false_iff.1 (hfree.resolve_left hother))
    rcases (SortedMap.mem_insertInto_of_new (Option.map_eq_none_iff.1 hnew)).1 hb with rfl | hold
    · exact ⟨hchanged, rfl⟩
    · exact hbinds b ((SortedMap.eraseFrom_sublist key _).subset hold)

theorem Sound.advances_updateRow (hs : s.Proper) {key : Entry}
    (hkey : key.fits s.primaryColumn.type) {targets : List Nat} {values : List Entry}
    (hdistinct : targets.Nodup)
    (hadmits : ∀ a ∈ targets.zip values, ∀ c, s.columns[a.1]? = some c → c.Admits a.2)
    (pin : Bool) :
    ∃ r sh', (Shelf.updateRow key s.primaryIndex targets values pin).run sh = (r, sh') ∧
      Advances s sh sh' := by
  by_cases hlength : targets.length = values.length
  case neg => exact ⟨_, sh, updateRow_length hlength pin sh, h.advances_self hbinds⟩
  cases hrow : (sh.rows s.primaryIndex).get? key with
  | none => exact ⟨_, sh, h.updateRow_notFound hrow hlength pin, h.advances_self hbinds⟩
  | some row =>
    have hvalues := hs.fits_of_admits hadmits
    obtain ⟨b, hb, rfl⟩ := Option.map_eq_some_iff.1 hrow
    have hfits := (hbinds b (SortedMap.mem_of_find? hb).1).fits
    obtain ⟨changed, hchanged⟩ : ∃ changed : Row,
      changed = { b.2 with entries := assign b.2.entries (targets.zip values) } := ⟨_, rfl⟩
    have hchangedFits : changed.Fits s := by
      rw [Row.Fits, hchanged]
      exact hfits.assign hadmits
    by_cases hduplicate : (changed.keyAt s.primaryIndex).same key = false ∧
        (sh.rows s.primaryIndex).contains (changed.keyAt s.primaryIndex) = true
    case pos =>
      obtain ⟨sh', hrun, hsound, hmoves⟩ := h.updateRow_duplicate hkey hrow hdistinct hlength
        hvalues hchanged hduplicate.1 hduplicate.2 pin
      exact ⟨_, sh', hrun, hmoves.advances hsound hbinds⟩
    have hfree : (changed.keyAt s.primaryIndex).same key = true ∨
        (sh.rows s.primaryIndex).contains (changed.keyAt s.primaryIndex) = false := by
      cases hsame : (changed.keyAt s.primaryIndex).same key with
      | true => exact .inl rfl
      | false => exact .inr (Bool.eq_false_iff.2 fun hin => hduplicate ⟨hsame, hin⟩)
    cases hcolumn : targets.find? fun column => decide (b.2.entries.length ≤ column) with
    | some column =>
      obtain ⟨sh', hrun, hsound, hmoves⟩ := h.updateRow_noColumn hkey hrow hdistinct hlength
        hvalues hchanged hfree hcolumn pin
      exact ⟨_, sh', hrun, hmoves.advances hsound hbinds⟩
    | none =>
      obtain ⟨sh', hrun, hsound, hframe, hlast, hrows, -⟩ := h.updateRow hkey hrow hdistinct hlength
        hvalues hchanged hfree hcolumn pin
      refine ⟨_, sh', hrun, hsound, hframe, fun n hn hle => by omega, ?_⟩
      rw [hrows]
      exact h.binds_changedRows hbinds hs hkey hchangedFits hfree

/-- A row that is got is a row of the shelf. -/
theorem Sound.advances_getRow (key : Entry) :
    ∃ r sh', (Shelf.getRow key s.primaryIndex).run sh = (r, sh') ∧ Advances s sh sh' ∧
      ∀ row, r = .ok row → row.Fits s := by
  cases hrow : (sh.rows s.primaryIndex).get? key with
  | none => exact ⟨_, sh, h.getRow_notFound hrow, h.advances_self hbinds, by simp⟩
  | some row =>
    obtain ⟨sh', hrun, hsound, hmoves⟩ := h.getRow hrow
    refine ⟨_, sh', hrun, hmoves.advances hsound hbinds, ?_⟩
    rintro _ ⟨⟩
    obtain ⟨b, hb, rfl⟩ := Option.map_eq_some_iff.1 hrow
    exact (hbinds b (SortedMap.mem_of_find? hb).1).fits

theorem Sound.advances_persist :
    ∃ r sh', Shelf.persist.run sh = (r, sh') ∧ Advances s sh sh' := by
  obtain ⟨r, sh', hrun, hsound, hmoves, -⟩ := h.persist
  exact ⟨r, sh', hrun, hmoves.advances hsound hbinds⟩

theorem Sound.advances_unpin : Advances s sh { sh with store := sh.store.unpin } := by
  obtain ⟨hsound, hmoves⟩ := h.unpin
  exact hmoves.advances hsound hbinds

end Shelf

end PageDb
