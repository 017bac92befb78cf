import Mathlib.Control.Monad.Basic
import PageDb.Proofs.Store.Readback

/-!
Updates that assign a column more than once.

The entries of the row end as the last values assigned to them.  Its new key is the last value
assigned to the primary column that is another key than the old one.  The two are the same unless the
last value is the old key again: `Shelf.Returns`.  `Shelf.follows_iff_not_returns` says that an update
keeps a row and its key together exactly if it does not return.
-/

namespace PageDb

namespace Shelf

/-! ## Values of the primary column -/

/-- The values that assignments give to the primary column, in their order. -/
def keyValues (primary : Nat) (assignments : List (Nat × Entry)) : List Entry :=
  (assignments.filter fun a => a.1 = primary).map Prod.snd

/-- Those of the values that are another key. -/
def otherKeys (key : Entry) (primary : Nat) (assignments : List (Nat × Entry)) : List Entry :=
  (keyValues primary assignments).filter fun v => !v.same key

/-- Assignments that give the primary column another key and then the old one again. -/
def Returns (key : Entry) (primary : Nat) (assignments : List (Nat × Entry)) : Prop :=
  (∃ v ∈ keyValues primary assignments, v.same key = false) ∧
    ∃ v ∈ (keyValues primary assignments).getLast?, v.same key = true

instance (key : Entry) (primary : Nat) (assignments : List (Nat × Entry)) :
    Decidable (Returns key primary assignments) :=
  inferInstanceAs (Decidable (_ ∧ _))

variable {t : ColumnType} {primary : Nat} {key : Entry} {assignments : List (Nat × Entry)}

theorem mem_keyValues {v : Entry} : v ∈ keyValues primary assignments ↔ (primary, v) ∈ assignments := by
  simp only [keyValues, List.mem_map, List.mem_filter, decide_eq_true_eq]
  constructor
  · rintro ⟨⟨column, w⟩, ⟨hmem, rfl⟩, rfl⟩
    exact hmem
  · exact fun hmem => ⟨_, ⟨hmem, rfl⟩, rfl⟩

/-- Assignments leave the last value in a column. -/
theorem getElem?_assign {entries : List Entry} {old : Entry} (hold : entries[primary]? = some old) :
    (assign entries assignments)[primary]? =
      some ((keyValues primary assignments).getLast?.getD old) := by
  induction assignments generalizing entries old with
  | nil => exact hold
  | cons a rest ih =>
    obtain ⟨column, value⟩ := a
    show (assign (entries.set column value) rest)[primary]? = _
    by_cases hcolumn : column = primary
    · subst hcolumn
      have hset : (entries.set column value)[column]? = some value :=
        List.getElem?_set_self (List.getElem?_eq_some_iff.1 hold).1
      rw [ih hset]
      simp [keyValues, List.getLast?_cons]
    · rw [ih ((List.getElem?_set_ne hcolumn).trans hold)]
      simp [keyValues, hcolumn]

/-- A column that is assigned once has no other value before its last. -/
theorem not_returns_of_nodup (hdistinct : (assignments.map Prod.fst).Nodup) :
    ¬ Returns key primary assignments := by
  induction assignments with
  | nil => rintro ⟨⟨v, hv, -⟩, -⟩; cases hv
  | cons a rest ih =>
    obtain ⟨column, value⟩ := a
    simp only [List.map_cons, List.nodup_cons] at hdistinct
    by_cases hcolumn : column = primary
    · have hrest : keyValues primary rest = [] := by
        refine List.eq_nil_iff_forall_not_mem.2 fun v hv => hdistinct.1 ?_
        exact hcolumn ▸ List.mem_map_of_mem (mem_keyValues.1 hv)
      have hkeys : keyValues primary ((column, value) :: rest) = [value] := by
        rw [← hrest]
        simp [keyValues, hcolumn]
      rintro ⟨⟨v, hv, hother⟩, last, hlast, hsame⟩
      simp only [hkeys, List.mem_singleton, List.getLast?_singleton, Option.mem_def,
        Option.some.injEq] at hv hlast
      rw [hv, hlast, hsame] at hother
      cases hother
    · have hkeys : keyValues primary ((column, value) :: rest) = keyValues primary rest := by
        simp [keyValues, hcolumn]
      rw [Returns, hkeys]
      exact ih hdistinct.2

/-- The new key is the last other value, and no other value is the key of a row. -/
theorem assignedKey_eq_ok_iff {index : Index Slot} {newKey : Option Entry} :
    assignedKey index key primary assignments = .ok newKey ↔
      (∀ v ∈ otherKeys key primary assignments, index.contains v = false) ∧
        newKey = (otherKeys key primary assignments).getLast? := by
  induction assignments generalizing newKey with
  | nil =>
    show Except.ok none = Except.ok newKey ↔ _
    rw [Except.ok.injEq, eq_comm]
    simp [otherKeys, keyValues]
  | cons a rest ih =>
    obtain ⟨column, value⟩ := a
    by_cases hother : column = primary ∧ ¬ value.same key = true
    · have hkeys : otherKeys key primary ((column, value) :: rest) =
          value :: otherKeys key primary rest := by
        simp [otherKeys, keyValues, hother.1, hother.2]
      rw [assignedKey, if_pos hother, hkeys]
      cases hin : index.contains value with
      | true => simp [hin]
      | false =>
        simp only [Bool.false_eq_true, if_false, List.forall_mem_cons, hin, true_and,
          List.getLast?_cons, Result.bind_eq_ok]
        constructor
        · rintro ⟨later, hlater, hnew⟩
          obtain ⟨hfree, rfl⟩ := ih.1 hlater
          exact ⟨hfree, (Except.ok.inj hnew).symm⟩
        · rintro ⟨hfree, rfl⟩
          exact ⟨_, ih.2 ⟨hfree, rfl⟩, rfl⟩
    · have hkeys : otherKeys key primary ((column, value) :: rest) = otherKeys key primary rest := by
        by_cases hcolumn : column = primary
        · have hsame : value.same key = true := Decidable.not_not.1 fun h => hother ⟨hcolumn, h⟩
          simp [otherKeys, keyValues, hcolumn, hsame]
        · simp [otherKeys, keyValues, hcolumn]
      rw [assignedKey, if_neg hother, hkeys]
      exact ih

/-- Unless the assignments return, the new key is what they leave in the primary column. -/
theorem getLast?_otherKeys (hreturns : ¬ Returns key primary assignments) {old : Entry}
    (hold : old.same key = true) :
    (otherKeys key primary assignments).getLast? =
      if ((keyValues primary assignments).getLast?.getD old).same key then none
      else some ((keyValues primary assignments).getLast?.getD old) := by
  unfold otherKeys
  unfold Returns at hreturns
  rcases List.eq_nil_or_concat (keyValues primary assignments) with hnil | ⟨before, last, hlast⟩
  · simp [hnil, hold]
  · rw [List.concat_eq_append] at hlast
    rw [hlast] at hreturns ⊢
    cases hsame : last.same key with
    | true =>
      have hnone : ∀ v ∈ before ++ [last], v.same key = true := fun v hv => by
        rw [← Bool.not_eq_false]
        exact fun hother => hreturns ⟨⟨v, hv, hother⟩, last, by simp, hsame⟩
      simpa [hsame, List.filter_append] using fun v hv => hnone v (by simp [hv])
    | false => simp [hsame, List.filter_append]

section Update

variable {sh : Shelf} {row changed : Row} {targets : List Nat} {values : List Entry}

/-- An update fails after at most its page has been looked for, or its row and columns are there and
its values are accepted. -/
theorem Sound.updateRow_cases (h : Sound t primary 0 sh) (key : Entry) (targets : List Nat)
    (values : List Entry) (pin : Bool) :
    (∃ e sh', (Shelf.updateRow key primary targets values pin).run sh = (.error e, sh') ∧
      Sound t primary 0 sh' ∧ Moves primary sh sh' ∧ (sh' = sh ∨ sh' = sh.resolved key primary)) ∨
    ∃ row newKey, targets.length = values.length ∧ (sh.rows primary).get? key = some row ∧
      Shelf.assignedKey sh.index key primary (targets.zip values) = .ok newKey ∧
      targets.find? (fun c => decide (row.entries.length ≤ c)) = none := by
  by_cases hlength : targets.length = values.length
  case neg => exact .inl ⟨_, sh, updateRow_length hlength pin sh, h, .refl sh, .inl rfl⟩
  cases hrow : (sh.rows primary).get? key with
  | none => exact .inl ⟨_, sh, h.updateRow_notFound hrow hlength pin, h, .refl sh, .inl rfl⟩
  | some row =>
    cases hassigned : Shelf.assignedKey sh.index key primary (targets.zip values) with
    | error e =>
      obtain ⟨hrun, hsound, hmoves⟩ := h.updateRow_refused hrow hlength hassigned pin
      exact .inl ⟨e, _, hrun, hsound, hmoves, .inr rfl⟩
    | ok newKey =>
      cases hcolumn : targets.find? fun c => decide (row.entries.length ≤ c) with
      | some column =>
        obtain ⟨hrun, hsound, hmoves⟩ := h.updateRow_outside hrow hlength hassigned hcolumn pin
        exact .inl ⟨_, _, hrun, hsound, hmoves, .inr rfl⟩
      | none => exact .inr ⟨row, newKey, hlength, rfl, rfl, hcolumn⟩

/-- The changed row has the last value that was assigned to its primary column. -/
theorem keyAt_assign (hkeyed : row.Keyed t primary)
    (hchanged : changed = { row with entries := assign row.entries (targets.zip values) }) :
    changed.keyAt primary =
      (keyValues primary (targets.zip values)).getLast?.getD (row.keyAt primary) := by
  obtain ⟨old, hold, -⟩ := hkeyed
  rw [hchanged, Row.keyAt, Row.keyAt, hold]
  exact congrArg (·.getD Entry.null) (getElem?_assign hold)

/-- An update that does not return keeps the row and its key together. -/
theorem Sound.updateRow_straight (h : Sound t primary 0 sh) (hkey : key.fits t)
    (hrow : (sh.rows primary).get? key = some row) (hlength : targets.length = values.length)
    (hvalues : ∀ v, (primary, v) ∈ targets.zip values → v.fits t)
    (hreturns : ¬ Returns key primary (targets.zip values)) {newKey : Option Entry}
    (hassigned : Shelf.assignedKey sh.index key primary (targets.zip values) = .ok newKey)
    (hcolumns : targets.find? (fun c => decide (row.entries.length ≤ c)) = none)
    (hchanged : changed = { row with entries := assign row.entries (targets.zip values) })
    (pin : Bool) :
    ∃ sh', (Shelf.updateRow key primary targets values pin).run sh = (.ok (), sh') ∧
      Sound t primary 0 sh' ∧ sh'.rows primary = changedRows primary (sh.rows primary) key changed ∧
      ((changed.keyAt primary).same key = true ∨
        (sh.rows primary).contains (changed.keyAt primary) = false) := by
  obtain ⟨hkeyed, hsame, -⟩ := h.agree.keyed_of_get?_contentsOf hkey hrow
  have hkeyAt := keyAt_assign hkeyed hchanged
  obtain ⟨hfree, hnew⟩ := assignedKey_eq_ok_iff.1 hassigned
  have hlast := getLast?_otherKeys hreturns hsame
  rw [← hkeyAt] at hlast
  rw [hnew, hlast] at hassigned
  have hnone : (changed.keyAt primary).same key = true ∨
      (sh.rows primary).contains (changed.keyAt primary) = false := by
    cases hother : (changed.keyAt primary).same key with
    | true => exact .inl rfl
    | false =>
      rw [hother] at hlast
      rw [← contains_rows primary sh]
      exact .inr (hfree _ (List.mem_of_getLast? hlast))
  obtain ⟨sh', hrun, hsound, -, -, hrows, -⟩ := h.updateRow_follows hkey hrow hlength hchanged
    (keyed_assign hkeyed hvalues hchanged) hassigned hnone hcolumns pin
  exact ⟨sh', hrun, hsound, hrows, hnone⟩

/-- A key that the index does not have is not found. -/
theorem getRow_unbound {index : Index Slot} (hlive : sh.store.index = some index)
    (hnone : index.get? key = none) :
    (getRow key primary).run sh = (.error (.keyNotFound key), sh) := by
  have hfetch : index.fetch key = .error (.keyNotFound key) := by simp [Index.fetch, hnone]
  have hresolve : (Shelf.resolve key primary).run sh = (.error (.keyNotFound key), sh) := by
    unfold Shelf.resolve
    rw [Action.run_bind_ok (run_getIndex hlive), hfetch, Action.run_bind_error (Action.run_lift _ _)]
  unfold getRow
  rw [Action.run_bind_error hresolve]

/-- After an update that returns the row is not found under its own primary entry. -/
theorem Sound.updateRow_strays (h : Sound t primary 0 sh) (hkey : key.fits t)
    (hrow : (sh.rows primary).get? key = some row) (hlength : targets.length = values.length)
    (hvalues : ∀ v, (primary, v) ∈ targets.zip values → v.fits t)
    (hreturns : Returns key primary (targets.zip values)) {newKey : Option Entry}
    (hassigned : Shelf.assignedKey sh.index key primary (targets.zip values) = .ok newKey)
    (hcolumns : targets.find? (fun c => decide (row.entries.length ≤ c)) = none)
    (hchanged : changed = { row with entries := assign row.entries (targets.zip values) })
    (pin : Bool) :
    ∃ sh', (Shelf.updateRow key primary targets values pin).run sh = (.ok (), sh') ∧
      (Shelf.getRow (changed.keyAt primary) primary).run sh' =
        (.error (.keyNotFound (changed.keyAt primary)), sh') := by
  obtain ⟨hkeyed, -, -⟩ := h.agree.keyed_of_get?_contentsOf hkey hrow
  have hown : (changed.keyAt primary).fits t := (keyed_assign hkeyed hvalues hchanged).fits
  obtain ⟨⟨v, hv, hother⟩, last, hlast, hsame⟩ := hreturns
  have hkeyAt : changed.keyAt primary = last := by
    rw [keyAt_assign hkeyed hchanged, Option.mem_def.1 hlast]
    rfl
  rw [← hkeyAt] at hsame
  obtain ⟨hfree, hnew⟩ := assignedKey_eq_ok_iff.1 hassigned
  -- the new key is one of the other values
  have hne : otherKeys key primary (targets.zip values) ≠ [] :=
    List.ne_nil_of_mem (List.mem_filter.2 ⟨hv, by simp [hother]⟩)
  obtain ⟨new, hnew'⟩ : ∃ new, (otherKeys key primary (targets.zip values)).getLast? = some new :=
    ⟨_, List.getLast?_eq_some_getLast hne⟩
  obtain ⟨hmem, hnewOther⟩ := List.mem_filter.1 (List.mem_of_getLast? hnew')
  have hnewFits : new.fits t := hvalues _ (mem_keyValues.1 hmem)
  simp only [Bool.not_eq_eq_eq_not, Bool.not_true] at hnewOther
  rw [hnew'] at hnew
  subst hnew
  obtain ⟨p, sh₁, hrun, h₁, hmoves, hget, hp⟩ := h.find hrow
  rw [← hmoves.assignedKey] at hassigned
  have hnone : sh₁.index.get? new = none := by
    rw [← SortedMap.contains_eq_false_iff, contains_rows primary, hmoves.rows,
      ← contains_rows primary]
    exact hfree _ (List.mem_of_getLast? hnew')
  refine ⟨_, (run_updateRow hlength hrun h₁.live hassigned hget hp hchanged hcolumns pin).trans
    (h₁.run_finishUpdate hkey hget hp hnewFits hnone pin), ?_⟩
  refine getRow_unbound ((Store.alike_visit _ _ _).index.trans rfl) ?_
  have hne : Ord.compare (changed.keyAt primary) new ≠ .eq := by
    rw [← Entry.same_eq_false_iff, Entry.same_congr_left hown hkey hnewFits hsame,
      Entry.same_comm hkey hnewFits]
    exact hnewOther
  rw [SortedMap.erase_modify, SortedMap.get?_insert_erase (Entry.orderedOn_fits t)
    h₁.agree.ascending hkey hnewFits hown, if_neg hne, if_pos (Entry.same_iff.1 hsame)]

end Update

/-- What reading rows and evicting, writing and unpinning pages lead to from a shelf. -/
inductive Rests (primary : Nat) (sh : Shelf) : Shelf → Prop where
  | refl : Rests primary sh sh
  | read {sh' : Shelf} (h : Rests primary sh sh') (key : Entry) :
      Rests primary sh ((getRow key primary).run sh').2
  | evict {sh' : Shelf} (h : Rests primary sh sh') : Rests primary sh (evict.run sh').2
  | persist {sh' : Shelf} (h : Rests primary sh sh') : Rests primary sh (persist.run sh').2
  | unpin {sh' : Shelf} (h : Rests primary sh sh') :
      Rests primary sh { sh' with store := sh'.store.unpin }

/-- Reading rows and moving pages changes no row. -/
theorem Sound.rests {sh sh' : Shelf} (h : Sound t primary 0 sh) (hrests : Rests primary sh sh') :
    Sound t primary 0 sh' ∧ Moves primary sh sh' := by
  induction hrests with
  | refl => exact ⟨h, .refl sh⟩
  | @read sh₁ _ key ih =>
    obtain ⟨h₁, hmoves₁⟩ := ih
    cases hrow : (sh₁.rows primary).get? key with
    | none =>
      rw [h₁.getRow_notFound hrow]
      exact ⟨h₁, hmoves₁⟩
    | some row =>
      obtain ⟨sh₂, hrun, hsound, hmoves⟩ := h₁.getRow hrow
      rw [hrun]
      exact ⟨hsound, hmoves₁.trans hmoves⟩
  | evict _ ih =>
    obtain ⟨_, sh₂, hrun, hsound, hmoves, -⟩ := ih.1.evict
    rw [hrun]
    exact ⟨hsound, ih.2.trans hmoves⟩
  | persist _ ih =>
    obtain ⟨_, sh₂, hrun, hsound, hmoves, -⟩ := ih.1.persist
    rw [hrun]
    exact ⟨hsound, ih.2.trans hmoves⟩
  | unpin _ ih =>
    obtain ⟨hsound, hmoves⟩ := ih.1.unpin
    exact ⟨hsound, ih.2.trans hmoves⟩

/-- The row that is got under a key. -/
def rowOf (primary : Nat) (sh : Shelf) (key : Entry) : Result Row :=
  ((getRow key primary).run sh).1

theorem Sound.rowOf_eq {sh : Shelf} (h : Sound t primary 0 sh) (key : Entry) :
    sh.rowOf primary key =
      match (sh.rows primary).get? key with
      | some row => .ok row
      | none => .error (.keyNotFound key) := by
  unfold rowOf
  cases hrow : (sh.rows primary).get? key with
  | none => rw [h.getRow_notFound hrow]
  | some row =>
    obtain ⟨sh', hrun, -, -⟩ := h.getRow hrow
    rw [hrun]

theorem Sound.rowOf_eq_ok_iff {sh : Shelf} (h : Sound t primary 0 sh) {key : Entry} {row : Row} :
    sh.rowOf primary key = .ok row ↔ (sh.rows primary).get? key = some row := by
  rw [h.rowOf_eq]
  cases (sh.rows primary).get? key <;> simp

theorem Sound.store_keys {sh : Shelf} (h : Sound t primary 0 sh) :
    sh.store.keys = .ok (sh.rows primary).keys := by
  rw [Store.keys, h.liveIndex, keys_rows]
  rfl

/-- The row of `key` has become `changed`, which is found under its own primary entry and under no
other.  Nothing else has changed. -/
structure Follows (t : ColumnType) (primary : Nat) (key : Entry) (changed : Row) (sh sh' : Shelf) :
    Prop where
  own : sh'.rowOf primary (changed.keyAt primary) = .ok changed
  gone : (changed.keyAt primary).same key = false →
    sh'.rowOf primary key = .error (.keyNotFound key)
  others : ∀ k, k.fits t → k.same key = false → k.same (changed.keyAt primary) = false →
    sh'.rowOf primary k = sh.rowOf primary k
  keys : ∃ before after, sh.store.keys = .ok before ∧ sh'.store.keys = .ok after ∧
    if (changed.keyAt primary).same key then after = before
    else after.Perm (changed.keyAt primary :: before.filter fun k => !k.same key)

section Follow

variable {sh sh' : Shelf} {row changed : Row}

/-- What the rows show after one of them has changed. -/
theorem Sound.follows (h : Sound t primary 0 sh) (h' : Sound t primary 0 sh') (hkey : key.fits t)
    (hrow : (sh.rows primary).get? key = some row) (hkeyed : changed.Keyed t primary)
    (hfree : (changed.keyAt primary).same key = true ∨
      (sh.rows primary).contains (changed.keyAt primary) = false)
    (hrows : sh'.rows primary = changedRows primary (sh.rows primary) key changed) :
    Follows t primary key changed sh sh' := by
  have hP := Entry.orderedOn_fits t
  have hascending : (sh.rows primary).Ascending (Entry.fits t) := h.agree.ascending_contentsOf
  have hown := hkeyed.fits
  cases hsame : (changed.keyAt primary).same key with
  | true =>
    rw [changedRows, if_pos hsame] at hrows
    refine ⟨h'.rowOf_eq_ok_iff.2 ?_, by simp [hsame], fun k hk hother _ => ?_,
      _, _, h.store_keys, h'.store_keys, ?_⟩
    · rw [hrows, SortedMap.get?_modify hP hascending hkey hown, if_pos (Entry.same_iff.1 hsame),
        SortedMap.get?_congr hP hascending hown hkey (Entry.same_iff.1 hsame), hrow]
      rfl
    · rw [h'.rowOf_eq, h.rowOf_eq, hrows, SortedMap.get?_modify hP hascending hkey hk,
        if_neg (Entry.same_eq_false_iff.1 hother)]
    · rw [if_pos hsame, hrows, SortedMap.keys_modify]
  | false =>
    have hnew := SortedMap.contains_eq_false_iff.1 (hfree.resolve_left (by simp [hsame]))
    rw [changedRows, hsame] at hrows
    simp only [Bool.false_eq_true, if_false] at hrows
    have hget {k : Entry} (hk : k.fits t) : (sh'.rows primary).get? k =
        if Ord.compare k (changed.keyAt primary) = .eq then some changed
        else if Ord.compare k key = .eq then none else (sh.rows primary).get? k := by
      rw [hrows, SortedMap.get?_insert_erase hP hascending hkey hown hk]
    refine ⟨h'.rowOf_eq_ok_iff.2 ?_, fun _ => ?_, fun k hk hother hother' => ?_,
      _, _, h.store_keys, h'.store_keys, ?_⟩
    · rw [hget hown, if_pos (hP.refl hown)]
    · rw [h'.rowOf_eq, hget hkey, if_neg, if_pos (hP.refl hkey)]
      exact Entry.same_eq_false_iff.1 (Entry.same_comm hkey hown ▸ hsame)
    · rw [h'.rowOf_eq, h.rowOf_eq, hget hk, if_neg (Entry.same_eq_false_iff.1 hother'),
        if_neg (Entry.same_eq_false_iff.1 hother)]
    · have hnone : ((sh.rows primary).erase key).get? (changed.keyAt primary) = none :=
        SortedMap.get?_erase_eq_none hP hascending hkey hown hnew
      have hfilter : ((sh.rows primary).erase key).keys =
          (sh.rows primary).keys.filter fun k => !k.same key := by
        rw [SortedMap.keys_erase hP hascending hkey]
        refine List.filter_congr fun k _ => ?_
        rw [Bool.eq_iff_iff]
        simp [Entry.same_eq_false_iff]
      rw [if_neg (by simp [hsame]), hrows, ← hfilter]
      exact SortedMap.keys_insert_perm hnone changed

end Follow

end Shelf

/-! ## Stores in which no update returned -/

/-- The keys of a call are of one column type. -/
def StoreCall.Keyed (t : ColumnType) (primary : Nat) : StoreCall → Prop
  | .update key targets values _ =>
    key.fits t ∧ ∀ v, (primary, v) ∈ targets.zip values → v.fits t
  | c => c.Typed t primary

/-- Whether a call gives the primary column of a row another key and then the old one again. -/
def StoreCall.Returns (primary : Nat) : StoreCall → Prop
  | .update key targets values _ => Shelf.Returns key primary (targets.zip values)
  | _ => False

/-- The shelves that calls and loads lead to from a new store, if no update that returns succeeds. -/
inductive Straight (t : ColumnType) (primary : Nat) : Shelf → Prop where
  | new (config : Config) (database table : String) {disk : Disk}
      (hdisk : disk.directory.Ordered) :
      Straight t primary ⟨config.newStore database table, disk⟩
  | call {sh : Shelf} {c : StoreCall} (h : Straight t primary sh) (hc : c.Keyed t primary)
      (hreturns : c.Returns primary → ∃ e, ((Shelf.call primary c).run sh).1 = .error e) :
      Straight t primary ((Shelf.call primary c).run sh).2
  | load {sh : Shelf} {rows : List Row} (h : Straight t primary sh) (hrows : sh.NextFile rows)
      (hfits : ∀ r ∈ rows, ∀ key, r.entries[primary]? = some key → key.fits t) :
      Straight t primary ((Shelf.insertPage rows primary).run sh).2

section Straightness

variable {t : ColumnType} {primary : Nat} {sh : Shelf}

namespace Shelf

/-- An update that fails or does not return keeps a shelf sound. -/
theorem Sound.update (h : Sound t primary 0 sh) {key : Entry} {targets : List Nat}
    {values : List Entry} {pin : Bool} (hc : (StoreCall.update key targets values pin).Keyed t primary)
    (hreturns : Returns key primary (targets.zip values) →
      ∃ e, ((Shelf.call primary (.update key targets values pin)).run sh).1 = .error e) :
    Sound t primary 0 ((Shelf.call primary (.update key targets values pin)).run sh).2 := by
  unfold Shelf.call at hreturns ⊢
  rcases h.updateRow_cases key targets values pin with ⟨e, sh', hrun, hsound, -⟩ |
    ⟨row, newKey, hlength, hrow, hassigned, hcolumns⟩
  · rw [Action.run_bind_error hrun]
    exact hsound
  by_cases hreturns' : Returns key primary (targets.zip values)
  · obtain ⟨sh', hrun, -⟩ :=
      h.updateRow_strays hc.1 hrow hlength hc.2 hreturns' hassigned hcolumns rfl pin
    obtain ⟨e, he⟩ := hreturns hreturns'
    rw [Action.run_bind_ok hrun] at he
    cases he
  · obtain ⟨sh', hrun, hsound, -⟩ :=
      h.updateRow_straight hc.1 hrow hlength hc.2 hreturns' hassigned hcolumns rfl pin
    rw [Action.run_bind_ok hrun]
    exact hsound

end Shelf

theorem Straight.sound (h : Straight t primary sh) : Shelf.Sound t primary 0 sh := by
  induction h with
  | new config database table hdisk => exact Shelf.sound_new t primary config database table hdisk
  | @call sh c _ hc hreturns ih =>
    by_cases hupdate : ∃ key targets values pin, c = .update key targets values pin
    · obtain ⟨key, targets, values, pin, rfl⟩ := hupdate
      exact ih.update hc hreturns
    · have htyped : c.Typed t primary := by
        cases c with
        | update key targets values pin => exact absurd ⟨_, _, _, _, rfl⟩ hupdate
        | _ => exact hc
      obtain ⟨r, sh', hrun, hsound, -⟩ := ih.call htyped
      rw [hrun]
      exact hsound
  | @load sh rows _ hrows hfits ih => exact ih.load hrows hfits

/-- Updates that assign no column twice do not return. -/
theorem Reachable.straight (h : Reachable t primary sh) : Straight t primary sh := by
  induction h with
  | new config database table hdisk => exact .new config database table hdisk
  | @call sh c _ hc ih =>
    cases c with
    | update key targets values pin =>
      refine ih.call ⟨hc.1, hc.2.2⟩ fun hreturns => ?_
      by_cases hlength : targets.length = values.length
      · refine absurd hreturns (Shelf.not_returns_of_nodup ?_)
        rw [List.map_fst_zip (by omega)]
        exact hc.2.1
      · exact ⟨_, congrArg Prod.fst (Action.run_bind_error (Shelf.updateRow_length hlength pin sh))⟩
    | _ => exact ih.call hc False.elim
  | load _ hrows hfits ih => exact ih.load hrows hfits

/-- After an update that succeeds the row is under the primary entry that its own entries hold, and
all other keys and rows are as before, however its page is evicted and read back: exactly if the last
value assigned to the primary column is not the old key after another one. -/
theorem follows_iff_not_returns (h : Straight t primary sh) {key : Entry} (hkey : key.fits t)
    {targets : List Nat} {values : List Entry}
    (hvalues : ∀ v, (primary, v) ∈ targets.zip values → v.fits t) {row : Row}
    (hrow : sh.rowOf primary key = .ok row) {pin : Bool} {sh' : Shelf}
    (hrun : (Shelf.updateRow key primary targets values pin).run sh = (.ok (), sh')) :
    (∀ sh'', Shelf.Rests primary sh' sh'' → Shelf.Follows t primary key
      { row with entries := Shelf.assign row.entries (targets.zip values) } sh sh'') ↔
      ¬ Shelf.Returns key primary (targets.zip values) := by
  have hsound := h.sound
  rw [hsound.rowOf_eq_ok_iff] at hrow
  rcases hsound.updateRow_cases key targets values pin with ⟨e, sh₁, hrun₁, -⟩ |
    ⟨row', newKey, hlength, hrow', hassigned, hcolumns⟩
  · cases hrun₁.symm.trans hrun
  obtain rfl : row = row' := Option.some.inj (hrow.symm.trans hrow')
  constructor
  · intro hfollows hreturns
    obtain ⟨sh₁, hrun₁, hstray⟩ :=
      hsound.updateRow_strays hkey hrow hlength hvalues hreturns hassigned hcolumns rfl pin
    cases hrun₁.symm.trans hrun
    have hown := (hfollows sh' .refl).own
    rw [Shelf.rowOf, hstray] at hown
    cases hown
  · intro hreturns sh'' hrests
    obtain ⟨sh₁, hrun₁, h₁, hrows, hfree⟩ :=
      hsound.updateRow_straight hkey hrow hlength hvalues hreturns hassigned hcolumns rfl pin
    cases hrun₁.symm.trans hrun
    obtain ⟨h₂, hmoves⟩ := h₁.rests hrests
    have hkeyed := (hsound.agree.keyed_of_get?_contentsOf hkey hrow).1
    exact hsound.follows h₂ hkey hrow (Shelf.keyed_assign hkeyed hvalues rfl) hfree
      (hmoves.rows.trans hrows)

end Straightness

/-- The keys have to be of one type: an eight-byte number is the same key as two eight-byte integers,
so that a row asked for by the number goes from one integer to the other and keeps its key. -/
example :
    let sh := Shelf.after 0 [.insert [.long 9007199254740992] false]
      ⟨({} : Config).newStore "shop" "items", {}⟩
    let outcome := (Shelf.updateRow (.double (.ofInt .double 9007199254740992)) 0 [0]
      [.long 9007199254740993] false).run sh
    outcome.1 = .ok () ∧ outcome.2.store.keys = .ok [.long 9007199254740992] ∧
      outcome.2.rowOf 0 (.long 9007199254740993) =
        .error (.keyNotFound (.long 9007199254740993)) := by
  decide +kernel

/-- A row gets one new key and then another, and its page leaves memory. -/
theorem follows_of_assignedTwice :
    ∃ sh', (Shelf.updateRow (.int 1) 0 [0, 0] [.int 5, .int 7] false).run twoPages = (.ok (), sh') ∧
      Shelf.Follows .int 0 (.int 1) ⟨[.int 7], 1⟩ twoPages (Shelf.evict.run sh').2 := by
  have hok : ((Shelf.updateRow (.int 1) 0 [0, 0] [.int 5, .int 7] false).run twoPages).1 = .ok () := by
    decide +kernel
  have hrow : twoPages.rowOf 0 (.int 1) = .ok ⟨[.int 1], 1⟩ := by decide +kernel
  rcases hrun : (Shelf.updateRow (.int 1) 0 [0, 0] [.int 5, .int 7] false).run twoPages with ⟨r, sh'⟩
  rw [hrun] at hok
  obtain rfl : r = .ok () := hok
  have hfollows := follows_iff_not_returns reachable_twoPages.straight (by decide)
    (by simp [Entry.fits, Entry.type?]) hrow hrun
  exact ⟨sh', rfl, hfollows.2 (by decide +kernel) _ (.evict .refl)⟩

/-- A row gets another key and then the old one again.  It is found under the other key only, and
once its page has left memory it is not found at all. -/
theorem strays_of_returning :
    let outcome := (Shelf.updateRow (.int 1) 0 [0, 0] [.int 5, .int 1] false).run twoPages
    Reachable .int 0 twoPages ∧ twoPages.rowOf 0 (.int 1) = .ok ⟨[.int 1], 1⟩ ∧
      outcome.1 = .ok () ∧ outcome.2.store.keys = .ok [.int 2, .int 5] ∧
      outcome.2.rowOf 0 (.int 1) = .error (.keyNotFound (.int 1)) ∧
      outcome.2.rowOf 0 (.int 5) = .ok ⟨[.int 1], 1⟩ ∧
      (Shelf.evict.run outcome.2).2.rowOf 0 (.int 5) = .error (.keyNotFound (.int 1)) :=
  ⟨reachable_twoPages, by decide +kernel⟩

end PageDb
