import PageDb.Proofs.Table.Selecting

/-!
Setting a column in several rows, one after the other.

A value for another column than the primary one suits every row.  A value for the primary column is a
key: if it is there already no row takes it but the one that has it, and if it is new only the first row
does.
-/

namespace PageDb

/-- The row with another entry in a column. -/
def Row.withEntry (row : Row) (column : Nat) (value : Entry) : Row :=
  { row with entries := row.entries.set column value }

theorem Row.keyAt_withEntry_self {row : Row} {primary : Nat} (h : primary < row.entries.length)
    (value : Entry) : (row.withEntry primary value).keyAt primary = value := by
  simp [Row.withEntry, Row.keyAt, h]

theorem Row.keyAt_withEntry_of_ne {column primary : Nat} (h : column ≠ primary) (row : Row)
    (value : Entry) : (row.withEntry column value).keyAt primary = row.keyAt primary := by
  simp [Row.withEntry, Row.keyAt, List.getElem?_set_ne h]

@[simp] theorem Row.withEntry_withEntry (row : Row) (column : Nat) (value : Entry) :
    (row.withEntry column value).withEntry column value = row.withEntry column value := by
  simp [Row.withEntry]

/-- A row that is given the entry it has stays the same. -/
theorem Row.withEntry_keyAt {row : Row} {primary : Nat} (h : primary < row.entries.length) :
    row.withEntry primary (row.keyAt primary) = row := by
  simp [Row.withEntry, Row.keyAt, h]

namespace Table

variable {t : Table} {I : Tablespace → Prop} {s s' : Tablespace} {column : Nat} {value key : Entry}
  {row : Row} {keys : List Entry}

/-- A value goes to a column that the table has. -/
theorem columnValue_lt {name : String} {operand : Operand}
    (h : t.columnValue name operand = .ok (column, value)) : column < t.schema.columns.length := by
  unfold Table.columnValue at h
  split at h
  · cases h
  split at h
  · cases h
  rename_i c hc
  obtain ⟨raw, -, h⟩ := Result.bind_eq_ok.1 h
  obtain ⟨valid, -, h⟩ := Result.bind_eq_ok.1 h
  cases h
  exact (List.getElem?_eq_some_iff.1 hc).1

/-- Whether a column of the rows of some keys can be set to a value.  If it is the primary one there is
at most one such row, and the value is its own key or the key of no row. -/
def Assignable (t : Table) (column : Nat) (value : Entry) (keys all : List Entry) : Prop :=
  column ≠ t.primaryIndex ∨ keys = [] ∨ ∃ key, keys = [key] ∧ (value = key ∨ value ∉ all)

namespace Steady

section Setting

variable (hI : t.Steady I) (h : I s) (hcolumn : column < t.schema.columns.length)
  (hadmits : ∀ c, t.schema.columns[column]? = some c → c.Admits value)

include hI h hadmits

/-- What setting a column in a row of the store does to the table. -/
theorem setColumn_run {r : Result Unit} {sh : Shelf} {pin : Bool} (hkey : key.fits t.keyType)
    (hrun : (Shelf.updateRow key t.primaryIndex [column] [value] pin).run (t.shelf s) = (r, sh)) :
    (t.onStore (Shelf.updateRow key t.primaryIndex [column] [value] pin)).run s = (r, t.withShelf s sh) ∧
      I (t.withShelf s sh) ∧ t.contents (t.withShelf s sh) = sh.rows t.primaryIndex :=
  onStore_run h (hI.updateRow hkey (List.nodup_singleton column) (by simpa using hadmits) pin) hrun

/-- A row is not given the key of another row. -/
theorem setColumn_taken (hrow : (key, row) ∈ (t.contents s).toList)
    (hother : ((row.withEntry column value).keyAt t.primaryIndex).same key = false)
    (htaken : (t.contents s).contains ((row.withEntry column value).keyAt t.primaryIndex) = true)
    (pin : Bool) :
    ∃ s', (t.onStore (Shelf.updateRow key t.primaryIndex [column] [value] pin)).run s =
        (.error (.duplicateKey ((row.withEntry column value).keyAt t.primaryIndex)), s') ∧
      I s' ∧ t.contents s' = t.contents s := by
  have hkey := (hI.stands h).ascending.holds _ hrow
  obtain ⟨sh, hrun, -, hmoves⟩ := (hI.stands h).sound.updateRow_duplicate hkey (hI.get?_contents h hrow)
    (List.nodup_singleton column) (show [column].length = [value].length from rfl)
    (hI.proper.fits_of_admits_one hadmits) rfl hother htaken pin
  obtain ⟨houter, hkept, hcontents⟩ := hI.setColumn_run h hadmits hkey hrun
  exact ⟨_, houter, hkept, hcontents.trans hmoves.rows⟩

include hcolumn

/-- Any other row is changed. -/
theorem setColumn_free (hrow : (key, row) ∈ (t.contents s).toList)
    (hfree : ((row.withEntry column value).keyAt t.primaryIndex).same key = true ∨
      (t.contents s).contains ((row.withEntry column value).keyAt t.primaryIndex) = false)
    (pin : Bool) :
    ∃ s', (t.onStore (Shelf.updateRow key t.primaryIndex [column] [value] pin)).run s = (.ok (), s') ∧
      I s' ∧ t.contents s' =
        Shelf.changedRows t.primaryIndex (t.contents s) key (row.withEntry column value) := by
  have hkey := (hI.stands h).ascending.holds _ hrow
  have hcolumns : [column].find? (fun c => decide (row.entries.length ≤ c)) = none := by
    have hwidth : t.schema.columns.length = row.entries.length := (hI.binds h _ hrow).fits.length_eq
    simp only [List.find?_cons, List.find?_nil]
    rw [decide_eq_false (by omega)]
  obtain ⟨sh, hrun, -, -, -, hrows, -⟩ := (hI.stands h).sound.updateRow hkey (hI.get?_contents h hrow)
    (List.nodup_singleton column) (show [column].length = [value].length from rfl)
    (hI.proper.fits_of_admits_one hadmits) rfl hfree hcolumns pin
  obtain ⟨houter, hkept, hcontents⟩ := hI.setColumn_run h hadmits hkey hrun
  exact ⟨_, houter, hkept, hcontents.trans hrows⟩

/-! ## Row after row -/

/-- A value for another column than the primary one suits every row. -/
theorem setEach_other (hother : column ≠ t.primaryIndex) (hkeys : ∀ k ∈ keys, k ∈ (t.contents s).keys)
    (pin : Bool) :
    ∃ s', (t.setEach column value pin keys).run s = (.ok (), s') ∧ I s' ∧
      (t.contents s').toList = (t.contents s).toList.map fun b =>
        (b.1, if b.1 ∈ keys then b.2.withEntry column value else b.2) := by
  induction keys generalizing s with
  | nil => exact ⟨s, rfl, h, by simp⟩
  | cons key rest ih =>
    obtain ⟨⟨own, row⟩, hrow, rfl⟩ := List.mem_map.1 (hkeys key (by simp))
    have hP := Entry.orderedOn_fits t.keyType
    have hascending := (hI.stands h).ascending
    have hsame : ((row.withEntry column value).keyAt t.primaryIndex).same own = true := by
      rw [Row.keyAt_withEntry_of_ne hother, ← hI.key_eq h hrow]
      exact Entry.same_iff.2 (hP.refl (hascending.holds _ hrow))
    obtain ⟨s₁, hrun, h₁, hcontents⟩ :=
      hI.setColumn_free h hcolumn hadmits hrow (.inl hsame) pin
    rw [Shelf.changedRows, if_pos hsame] at hcontents
    have hkept : (t.contents s₁).keys = (t.contents s).keys := by
      rw [hcontents, SortedMap.keys_modify]
    rw [← hkept] at hkeys
    obtain ⟨s', hrest, h', hlist⟩ := ih h₁ fun k hk => hkeys k (by simp [hk])
    refine ⟨s', by rw [setEach, Action.run_bind_ok hrun, hrest], h', ?_⟩
    rw [hlist, hcontents, SortedMap.toList_modify_of_mem hP hascending hrow, List.map_map]
    refine List.map_congr_left fun b hb => ?_
    by_cases hb' : b.1 = own
    · -- the row is the only one under its key
      have hown : b.2 = row := by
        have hget := hI.get?_contents h hb
        rw [hb', hI.get?_contents h hrow] at hget
        exact (Option.some.inj hget).symm
      simp [hb', hown]
    · simp [hb']

end Setting

section Keys

variable (hI : t.Steady I) (h : I s)
  (hadmits : ∀ c, t.schema.columns[t.primaryIndex]? = some c → c.Admits value)

include hI h

theorem primaryIndex_lt (hrow : (key, row) ∈ (t.contents s).toList) :
    t.primaryIndex < row.entries.length :=
  (hI.binds h _ hrow).fits.primaryIndex_lt hI.proper

/-- A row that is given its key once more stays the same. -/
theorem withEntry_key (hrow : (value, row) ∈ (t.contents s).toList) :
    row.withEntry t.primaryIndex value = row := by
  obtain rfl : value = row.keyAt t.primaryIndex := hI.key_eq h hrow
  exact Row.withEntry_keyAt (hI.primaryIndex_lt h hrow)

include hadmits

/-- A value that is the key of a row is bit for bit the one that the row is under. -/
theorem eq_key (hrow : (key, row) ∈ (t.contents s).toList) (hsame : value.same key = true) :
    value = key := by
  obtain ⟨-, hquiet⟩ := (hI.binds h _ hrow).fits.primary hI.proper
  rw [show row.keyAt t.schema.primaryIndex = key from (hI.key_eq h hrow).symm] at hquiet
  have hvalue : value.fits t.keyType := hI.proper.fits_of_admits_one hadmits value List.mem_cons_self
  obtain ⟨c, hc, -⟩ := hI.proper
  exact Entry.eq_of_same hvalue ((hI.stands h).ascending.holds _ hrow) (hadmits c hc).quiet hquiet hsame

/-- Another value is not taken for the key of a row. -/
theorem same_eq_false_of_ne (hrow : (key, row) ∈ (t.contents s).toList) (hne : value ≠ key) :
    value.same key = false :=
  Bool.eq_false_iff.2 fun hsame => hne (hI.eq_key h hadmits hrow hsame)

/-- A row takes its own key or a new one. -/
theorem setColumn_key (hrow : (key, row) ∈ (t.contents s).toList)
    (hfree : value.same key = true ∨ (t.contents s).contains value = false) (pin : Bool) :
    ∃ s', (t.onStore (Shelf.updateRow key t.primaryIndex [t.primaryIndex] [value] pin)).run s =
        (.ok (), s') ∧ I s' ∧ t.contents s' =
        if value.same key then (t.contents s).modify key fun _ => row.withEntry t.primaryIndex value
        else ((t.contents s).erase key).insert value (row.withEntry t.primaryIndex value) := by
  have hcolumn : t.primaryIndex < t.schema.columns.length := hI.proper.primaryIndex_lt
  have hvalue := Row.keyAt_withEntry_self (hI.primaryIndex_lt h hrow) value
  have hset := hI.setColumn_free h hcolumn hadmits hrow (by rwa [hvalue]) pin
  rwa [Shelf.changedRows, hvalue] at hset

/-- The rows have the keys that the table lists. -/
theorem contains_iff_mem_keys : (t.contents s).contains value = true ↔ value ∈ (t.contents s).keys := by
  constructor
  · intro hcontains
    obtain ⟨b, hb, -⟩ := Option.map_eq_some_iff.1 (Option.get_mem hcontains)
    obtain ⟨hmem, hsame⟩ := SortedMap.mem_of_find? hb
    exact List.mem_map.2 ⟨b, hmem, (hI.eq_key h hadmits hmem (Entry.same_iff.2 hsame)).symm⟩
  · intro hmem
    obtain ⟨⟨_, row⟩, hrow, rfl⟩ := List.mem_map.1 hmem
    rw [SortedMap.contains_eq_isSome_get?, hI.get?_contents h hrow]
    rfl

/-- A key that is there already is taken by no row: the row that has it keeps it, and the first other
row is refused. -/
theorem setEach_taken (htaken : value ∈ (t.contents s).keys)
    (hkeys : ∀ k ∈ keys, k ∈ (t.contents s).keys) (pin : Bool) :
    ∃ r s', (t.setEach t.primaryIndex value pin keys).run s = (r, s') ∧ I s' ∧
      t.contents s' = t.contents s ∧ (r = .ok () ↔ ∀ k ∈ keys, value = k) := by
  induction keys generalizing s with
  | nil => exact ⟨_, s, rfl, h, rfl, by simp⟩
  | cons key rest ih =>
    obtain ⟨⟨own, row⟩, hrow, rfl⟩ := List.mem_map.1 (hkeys key (by simp))
    by_cases hown : value = own
    case neg =>
      have hvalue := Row.keyAt_withEntry_self (hI.primaryIndex_lt h hrow) value
      have hother := hI.same_eq_false_of_ne h hadmits hrow hown
      have hcontains := (hI.contains_iff_mem_keys h hadmits).2 htaken
      obtain ⟨s', hrun, h', hcontents⟩ :=
        hI.setColumn_taken h hadmits hrow (by rw [hvalue, hother]) (by rw [hvalue, hcontains]) pin
      exact ⟨_, s', by rw [setEach, Action.run_bind_error hrun], h', hcontents, by simp [hown]⟩
    subst hown
    have hsame : value.same value = true :=
      Entry.same_iff.2 ((Entry.orderedOn_fits _).refl ((hI.stands h).ascending.holds _ hrow))
    obtain ⟨s₁, hrun, h₁, hcontents⟩ := hI.setColumn_key h hadmits hrow (.inl hsame) pin
    have hkept : t.contents s₁ = t.contents s := by
      rw [hcontents, if_pos hsame, hI.withEntry_key h hrow]
      exact SortedMap.modify_self (hI.get?_contents h hrow)
    rw [← hkept] at htaken hkeys
    obtain ⟨r, s', hrest, h', hcontents', hok⟩ := ih h₁ htaken fun k hk => hkeys k (by simp [hk])
    refine ⟨r, s', by rw [setEach, Action.run_bind_ok hrun, hrest], h', hcontents'.trans hkept, ?_⟩
    rw [hok]
    simp

/-- A new key goes to the first row. -/
theorem setColumn_new (hnew : value ∉ (t.contents s).keys) (hrow : (key, row) ∈ (t.contents s).toList)
    (pin : Bool) :
    ∃ s', (t.onStore (Shelf.updateRow key t.primaryIndex [t.primaryIndex] [value] pin)).run s =
        (.ok (), s') ∧ I s' ∧
      (t.contents s').toList.Perm ((value, row.withEntry t.primaryIndex value) ::
        (t.contents s).toList.filter fun b => decide (b.1 ≠ key)) := by
  have hP := Entry.orderedOn_fits t.keyType
  have hascending := (hI.stands h).ascending
  have hvalue : value.fits t.keyType := hI.proper.fits_of_admits_one hadmits value List.mem_cons_self
  have hcontains : (t.contents s).contains value = false :=
    Bool.eq_false_iff.2 fun hcontains => hnew ((hI.contains_iff_mem_keys h hadmits).1 hcontains)
  have hne : value ≠ key := fun heq => hnew (heq ▸ List.mem_map_of_mem hrow)
  have hother := hI.same_eq_false_of_ne h hadmits hrow hne
  obtain ⟨s', hrun, h', hcontents⟩ := hI.setColumn_key h hadmits hrow (.inr hcontains) pin
  refine ⟨s', hrun, h', ?_⟩
  have hnone : ((t.contents s).erase key).get? value = none :=
    SortedMap.get?_erase_eq_none hP hascending (hascending.holds _ hrow) hvalue
      (SortedMap.contains_eq_false_iff.1 hcontains)
  rw [hcontents, hother, if_neg Bool.false_ne_true, ← SortedMap.toList_erase_of_mem hP hascending hrow]
  exact SortedMap.toList_insert_perm hnone _

/-- The second row is refused the new key that the first one has got. -/
theorem setEach_new (hnew : value ∉ (t.contents s).keys) {key' : Entry} {rest : List Entry}
    (hkeys : ∀ k ∈ key :: key' :: rest, k ∈ (t.contents s).keys) (hother : key' ≠ key) (pin : Bool) :
    ∃ s', (t.setEach t.primaryIndex value pin (key :: key' :: rest)).run s =
        (.error (.duplicateKey value), s') ∧ I s' ∧ value ∈ (t.contents s').keys := by
  obtain ⟨⟨own, row⟩, hrow, rfl⟩ := List.mem_map.1 (hkeys key (by simp))
  obtain ⟨⟨own', row'⟩, hrow', rfl⟩ := List.mem_map.1 (hkeys key' (by simp))
  obtain ⟨s₁, hrun, h₁, hperm⟩ := hI.setColumn_new h hadmits hnew hrow pin
  -- the second row is where it was, and the value is a key by now
  have hrow₁ : (own', row') ∈ (t.contents s₁).toList :=
    hperm.mem_iff.2 (List.mem_cons_of_mem _ (List.mem_filter.2 ⟨hrow', decide_eq_true hother⟩))
  have htaken : value ∈ (t.contents s₁).keys :=
    List.mem_map.2 ⟨_, hperm.mem_iff.2 List.mem_cons_self, rfl⟩
  have hne : value ≠ own' := fun heq => hnew (heq ▸ List.mem_map_of_mem hrow')
  have hdiffer := hI.same_eq_false_of_ne h hadmits hrow' hne
  have hown := Row.keyAt_withEntry_self (hI.primaryIndex_lt h hrow') value
  have hcontains := (hI.contains_iff_mem_keys h₁ hadmits).2 htaken
  obtain ⟨s', hrefused, h', hcontents⟩ := hI.setColumn_taken h₁ hadmits hrow₁
    (by rw [hown, hdiffer]) (by rw [hown, hcontains]) pin
  rw [hown] at hrefused
  refine ⟨s', ?_, h', by rwa [hcontents]⟩
  rw [setEach, Action.run_bind_ok hrun, setEach, Action.run_bind_error hrefused]

end Keys

/-! ## All of them -/

section All

variable (hI : t.Steady I) (h : I s) (hcolumn : column < t.schema.columns.length)
  (hadmits : ∀ c, t.schema.columns[column]? = some c → c.Admits value)
  (hkeys : keys.Sublist (t.contents s).keys)

include hI h hcolumn hadmits hkeys

/-- Where the value is assignable the rows of the keys have it afterwards, and the others are as they
were. -/
theorem setEach_assignable (hassignable : t.Assignable column value keys (t.contents s).keys)
    (pin : Bool) :
    ∃ s', (t.setEach column value pin keys).run s = (.ok (), s') ∧ I s' ∧
      (t.contents s').values.Perm ((t.contents s).toList.map fun b =>
        if b.1 ∈ keys then b.2.withEntry column value else b.2) := by
  by_cases hother : column = t.primaryIndex
  case neg =>
    obtain ⟨s', hrun, h', hlist⟩ :=
      hI.setEach_other h hcolumn hadmits hother (fun _ hk => hkeys.subset hk) pin
    refine ⟨s', hrun, h', ?_⟩
    rw [SortedMap.values, hlist, List.map_map]
    exact .refl _
  subst hother
  rcases hassignable with hne | rfl | ⟨key, rfl, hvalue⟩
  · exact absurd rfl hne
  · exact ⟨s, rfl, h, by simp [SortedMap.values]⟩
  obtain ⟨⟨own, row⟩, hrow, rfl⟩ := List.mem_map.1 (hkeys.subset List.mem_cons_self)
  have hperm := SortedMap.perm_cons_filter_of_mem (Entry.orderedOn_fits _) (hI.stands h).ascending hrow
  by_cases hnew : value ∈ (t.contents s).keys
  case pos =>
    obtain rfl : value = own := hvalue.resolve_right (not_not_intro hnew)
    obtain ⟨r, s', hrun, h', hcontents, hok⟩ :=
      hI.setEach_taken h hadmits hnew (fun _ hk => hkeys.subset hk) pin
    obtain rfl := hok.2 (by simp)
    refine ⟨s', hrun, h', ?_⟩
    rw [hcontents, SortedMap.values]
    refine .of_eq (List.map_congr_left fun b hb => ?_)
    split
    · rename_i hb'
      obtain rfl := List.mem_singleton.1 hb'
      exact (hI.withEntry_key h hb).symm
    · rfl
  case neg =>
    obtain ⟨s', hrun, h', hafter⟩ := hI.setColumn_new h hadmits hnew hrow pin
    refine ⟨s', by rw [setEach, Action.run_bind_ok hrun]; rfl, h', ?_⟩
    -- the row may have another place in key order now
    refine (hafter.map Prod.snd).trans (.trans ?_ (hperm.map _).symm)
    rw [List.map_cons, List.map_cons, if_pos List.mem_cons_self]
    refine .cons _ (.of_eq (List.map_congr_left fun b hb => ?_))
    rw [if_neg]
    simpa using (List.mem_filter.1 hb).2

/-- Where it is not the update fails: with a value that is a key already nothing has changed, and a new
one is a key afterwards. -/
theorem setEach_not_assignable (hassignable : ¬ t.Assignable column value keys (t.contents s).keys)
    (pin : Bool) :
    ∃ e s', (t.setEach column value pin keys).run s = (.error e, s') ∧ I s' ∧
      (value ∈ (t.contents s).keys ∧ t.contents s' = t.contents s ∨
        value ∉ (t.contents s).keys ∧ 2 ≤ keys.length ∧ value ∈ (t.contents s').keys) := by
  obtain ⟨hother, hnonempty, hone⟩ :
      column = t.primaryIndex ∧ keys ≠ [] ∧
        ∀ key, keys = [key] → value ≠ key ∧ value ∈ (t.contents s).keys := by
    simpa [Assignable, not_or] using hassignable
  subst hother
  have hnodup := (hI.stands h).ascending.nodup_keys (Entry.orderedOn_fits _) |>.sublist hkeys
  by_cases hnew : value ∈ (t.contents s).keys
  case pos =>
    obtain ⟨r, s', hrun, h', hcontents, hok⟩ :=
      hI.setEach_taken h hadmits hnew (fun _ hk => hkeys.subset hk) pin
    cases r with
    | error e => exact ⟨e, s', hrun, h', .inl ⟨hnew, hcontents⟩⟩
    | ok _ =>
      -- then the value is the key of each of the rows, of which there is one
      exfalso
      have hall := hok.1 rfl
      match keys, hnonempty, hall, hnodup, hone with
      | [key], _, hall, _, hone => exact (hone key rfl).1 (hall key (by simp))
      | key :: key' :: rest, _, hall, hnodup, _ =>
        have hsame := (hall key (by simp)).symm.trans (hall key' (by simp))
        simp [hsame] at hnodup
  case neg =>
    match keys, hnonempty, hkeys, hnodup, hone with
    | [key], _, _, _, hone => exact absurd (hone key rfl).2 hnew
    | key :: key' :: rest, _, hkeys, hnodup, _ =>
      have hother : key' ≠ key := by
        rintro rfl
        simp at hnodup
      obtain ⟨s', hrun, h', htaken⟩ :=
        hI.setEach_new h hadmits hnew (fun _ hk => hkeys.subset hk) hother pin
      exact ⟨_, s', hrun, h', .inr ⟨hnew, by simp, htaken⟩⟩

end All

end Steady

end Table

end PageDb
