import PageDb.Proofs.Table.Upkeep
import PageDb.Proofs.Table.Walk
import Mathlib.Data.List.Nodup

/-!
Calls on a table.

`Table.Upholds` says of an invariant that the operations on single rows keep it, and the calls that
are made of these keep it as well.

`Table.Advances` is what a call does to the tablespace, whether it fails or not: the shelf of the
table advances, and the tables apart from it are as before.  An invariant that such a step keeps is
`Table.Steady`, and `Table.Steady.call` is what every call keeps of it.
-/

namespace PageDb

/-- What a table can be asked for. -/
inductive TableCall where
  | insert (entries : List Entry) (pin : Bool)
  | insertLiterals (names : Option (List String)) (literals : List String) (pin : Bool)
  | update (key : Entry) (assignments : List (String × Entry)) (pin : Bool)
  | updateWhere (column : String) (value : Operand) (filter : Option Predicate) (pin : Bool)
  | delete (key : Entry) (pin : Bool)
  | deleteWhere (filter : Option Predicate) (pin : Bool)
  | get (key : Entry)
  | nextKey (walk : Walk)
  | nextRow (walk : Walk)
  | unpin
  | persist
deriving DecidableEq

/-- Runs a walk on from where it is. -/
def Walk.resume {α : Type} (walk : Walk) (action : Moving Walk α) : Action Tablespace α :=
  ExceptT.mk fun space =>
    let (result, (_, space)) := action.run (walk, space)
    (result, space)

/-- The keys of a call are of the type of the table, no column is assigned twice, and a walk is one
of the table. -/
def TableCall.Typed (t : Table) : TableCall → Prop
  | .update key assignments _ => key.fits t.keyType ∧ (assignments.map Prod.fst).Nodup
  | .delete key _ => key.fits t.keyType
  | .nextKey walk => walk.table = t
  | .nextRow walk => walk.table = t
  | _ => True

namespace Table

/-- Runs a call; its answer does not matter here. -/
def call (t : Table) : TableCall → Action Tablespace Unit
  | .insert entries pin => t.insert entries pin
  | .insertLiterals names literals pin => t.insertLiterals names literals pin
  | .update key assignments pin => t.update key assignments pin
  | .updateWhere column value filter pin => do let _ ← t.updateWhere column value filter pin
  | .delete key pin => t.delete key pin
  | .deleteWhere filter pin => do let _ ← t.deleteWhere filter pin
  | .get key => do let _ ← t.get key
  | .nextKey walk => do let _ ← walk.resume Walk.nextKey
  | .nextRow walk => do let _ ← walk.resume Walk.nextRow
  | .unpin => modify fun s => s.unpin t.number
  | .persist => do let _ ← t.persist

end Table

/-! ## Walks -/

namespace Moving

variable {σ α : Type} {I : Tablespace → Prop} {Q : σ → Prop} {P : α → Prop}

/-- What holds of something that moves, beside an invariant of the tables. -/
def Beside (Q : σ → Prop) (I : Tablespace → Prop) (m : σ × Tablespace) : Prop := Q m.1 ∧ I m.2

theorem keeps_still {action : Action Tablespace α} (h : Action.Keeps I action P) :
    Action.Keeps (Beside Q I) (still action : Moving σ α) P :=
  fun m hm => ⟨⟨hm.1, (h m.2 hm.2).1⟩, (h m.2 hm.2).2⟩

theorem keeps_mover : Action.Keeps (Beside Q I) (mover : Moving σ σ) Q :=
  .bind (.get fun _ hm => hm) fun _ hm => .pure hm.1

theorem keeps_moveTo {m' : σ} (h : Q m') :
    Action.Keeps (Beside Q I) (moveTo m' : Moving σ Unit) fun _ => True :=
  fun _ hm => ⟨⟨h, hm.2⟩, fun _ _ => trivial⟩

end Moving

namespace Table

open Moving (Beside)

variable {t : Table} {I : Tablespace → Prop} {α : Type} {P : α → Prop}

/-- A walk through the table keeps the invariant of the tables. -/
theorem keeps_resume {walk : Walk} (hwalk : walk.table = t) {action : Moving Walk α}
    (ha : Action.Keeps (Beside (fun walk => walk.table = t) I) action P) :
    Action.Keeps I (walk.resume action) P :=
  fun s hs => ⟨(ha (walk, s) ⟨hwalk, hs⟩).1.2, (ha (walk, s) ⟨hwalk, hs⟩).2⟩

theorem keeps_nextKey? (after : Option Entry) : Action.Keeps I (t.nextKey? after) fun _ => True :=
  .bind (.get fun _ _ => trivial) fun _ (_ : True) => .lift fun _ _ => trivial

theorem keeps_nextKey :
    Action.Keeps (Beside (fun walk => walk.table = t) I) Walk.nextKey fun _ => True := by
  refine .bind Moving.keeps_mover fun walk (hwalk : walk.table = t) => ?_
  split
  · exact .pure trivial
  refine .bind (Moving.keeps_still (keeps_nextKey? walk.last)) fun key _ => ?_
  cases key with
  | none => exact .bind (Moving.keeps_moveTo hwalk) fun _ _ => .pure trivial
  | some key => exact .bind (Moving.keeps_moveTo hwalk) fun _ _ => .pure trivial

/-! ## Values for columns -/

/-- What keeps an invariant while rows that fit are added keeps it while entries are added. -/
theorem keeps_insert {entries : List Entry} {pin : Bool}
    (h : ∀ {values}, List.Forall₂ Column.Admits t.schema.columns values →
      Action.Keeps I (t.onStore (Shelf.insertRow values t.primaryIndex pin)) fun _ => True) :
    Action.Keeps I (t.insert entries pin) fun _ => True := by
  unfold Table.insert
  by_cases hlength : entries.length = t.schema.columns.length
  · simp only [hlength, ne_eq, not_true_eq_false, if_false]
    exact .bind (.lift fun values hvalues => validateAll_fits hlength hvalues) fun _ hfits => h hfits
  · simp only [hlength, ne_eq, not_false_eq_true, if_true]
    exact .throw _

/-- The value for a column is one that the column admits. -/
theorem columnValue_admits {name : String} {value : Operand} {column : Nat} {entry : Entry}
    (h : t.columnValue name value = .ok (column, entry)) :
    ∀ c, t.schema.columns[column]? = some c → c.Admits entry := by
  unfold Table.columnValue at h
  split at h
  · cases h
  split at h
  · cases h
  rename_i c hc
  obtain ⟨raw, -, h⟩ := Result.bind_eq_ok.1 h
  obtain ⟨valid, hvalid, h⟩ := Result.bind_eq_ok.1 h
  cases h
  intro d hd
  obtain rfl : c = d := Option.some.inj (hc.symm.trans hd)
  exact Column.validate_admits hvalid

/-- An assignment goes to the column of its name, with a value that the column admits. -/
theorem resolveAssignment_eq_ok {a : String × Entry} {column : Nat} {entry : Entry}
    (h : t.resolveAssignment a = .ok (column, entry)) :
    ∃ c, t.schema.columns[column]? = some c ∧ c.name = a.1 ∧ c.Admits entry := by
  unfold Table.resolveAssignment at h
  split at h
  · cases h
  rename_i i hi
  split at h
  · cases h
  rename_i c hc
  obtain ⟨valid, hvalid, h⟩ := Result.bind_eq_ok.1 h
  cases h
  obtain ⟨hlt, hname, -⟩ := List.findIdx?_eq_some_iff_getElem.1 hi
  have hcolumn := (List.getElem?_eq_some_iff.1 hc).2
  exact ⟨c, hc, by simpa [hcolumn] using hname, Column.validate_admits hvalid⟩

/-- Assignments to different names go to different columns. -/
theorem nodup_targets {assignments : List (String × Entry)} {resolved : List (Nat × Entry)}
    (h : assignments.mapM t.resolveAssignment = .ok resolved)
    (hnames : (assignments.map Prod.fst).Nodup) : (resolved.map Prod.fst).Nodup := by
  have hcolumns : (resolved.map Prod.fst).map (fun i => (t.schema.columns[i]?).map Column.name) =
      (assignments.map Prod.fst).map some := by
    have hresolved := forall₂_of_mapM h
    clear h hnames
    induction hresolved with
    | nil => rfl
    | cons ha _ ih =>
      obtain ⟨c, hc, hname, -⟩ := resolveAssignment_eq_ok ha
      simp only [List.map_cons, hc, Option.map_some, hname, ih]
  refine List.Nodup.of_map (fun i => (t.schema.columns[i]?).map Column.name) ?_
  rw [hcolumns]
  exact hnames.map fun _ _ => Option.some.inj

/-- What is assigned is what the columns admit. -/
theorem admits_of_resolved {assignments : List (String × Entry)} {resolved : List (Nat × Entry)}
    (h : assignments.mapM t.resolveAssignment = .ok resolved) :
    ∀ a ∈ resolved, ∀ c, t.schema.columns[a.1]? = some c → c.Admits a.2 := by
  have hresolved := forall₂_of_mapM h
  clear h
  induction hresolved with
  | nil => simp
  | cons ha _ ih =>
    obtain ⟨c, hc, -, hadmits⟩ := resolveAssignment_eq_ok ha
    refine List.forall_mem_cons.2 ⟨fun d hd => ?_, ih⟩
    obtain rfl : c = d := Option.some.inj (hc.symm.trans hd)
    exact hadmits

/-! ## Calls from operations on rows -/

/-- An invariant that operations on single rows of a table keep.  The rows that are got are as `Q`
says; the keys that are listed are as `K` says, and so are those of the rows. -/
structure Upholds (t : Table) (pin : Bool) (I : Tablespace → Prop) (K : Entry → Prop)
    (Q : Row → Prop) : Prop where
  get : ∀ key, Action.Keeps I (t.get key) Q
  keys : Action.Keeps I t.keys fun keys => ∀ k ∈ keys, K k
  keyOf : ∀ row, Q row → K (t.keyOf row)
  insertRow : ∀ {values}, List.Forall₂ Column.Admits t.schema.columns values →
    Action.Keeps I (t.onStore (Shelf.insertRow values t.primaryIndex pin)) fun _ => True
  delete : ∀ {key}, K key → Action.Keeps I (t.delete key pin) fun _ => True
  setColumn : ∀ {key column value}, K key →
    (∀ c, t.schema.columns[column]? = some c → c.Admits value) →
      Action.Keeps I (t.onStore (Shelf.updateRow key t.primaryIndex [column] [value] pin))
        fun _ => True

namespace Upholds

variable {pin : Bool} {K : Entry → Prop} {Q : Row → Prop}

theorem insert (h : t.Upholds pin I K Q) (entries : List Entry) :
    Action.Keeps I (t.insert entries pin) fun _ => True :=
  keeps_insert h.insertRow

theorem insertLiterals (h : t.Upholds pin I K Q) (names : Option (List String))
    (literals : List String) : Action.Keeps I (t.insertLiterals names literals pin) fun _ => True :=
  .bind (.lift fun _ _ => trivial) fun entries (_ : True) => h.insert entries

theorem find? (h : t.Upholds pin I K Q) (key : Entry) :
    Action.Keeps I (t.find? key) fun found => ∀ row, found = some row → Q row := by
  refine .bind (h.get key).attempt fun r hr => ?_
  cases r with
  | ok row =>
    refine .pure ?_
    rintro _ ⟨⟩
    exact hr row rfl
  | error e =>
    cases e with
    | keyNotFound key => exact .pure (by simp)
    | _ => exact .throw _

theorem nextRowWithin (h : t.Upholds pin I K Q) (fuel : Nat) :
    Action.Keeps (Beside (fun walk => walk.table = t) I) (Walk.nextRowWithin fuel) fun row? =>
      ∀ row, row? = some row → Q row := by
  induction fuel with
  | zero => exact .pure (by simp)
  | succ fuel ih =>
    refine .bind keeps_nextKey fun key _ => ?_
    cases key with
    | none => exact .pure (by simp)
    | some key =>
      refine .bind Moving.keeps_mover fun walk (hwalk : walk.table = t) => ?_
      subst hwalk
      refine .bind (Moving.keeps_still (h.find? key)) fun found hfound => ?_
      cases found with
      | none => exact ih
      | some row => exact .pure hfound

theorem nextRow (h : t.Upholds pin I K Q) :
    Action.Keeps (Beside (fun walk => walk.table = t) I) Walk.nextRow fun row? =>
      ∀ row, row? = some row → Q row :=
  .bind (.get fun _ _ => trivial) fun _ (_ : True) => h.nextRowWithin _

theorem acceptedKeys (h : t.Upholds pin I K Q) (p : Predicate) (fuel : Nat) :
    Action.Keeps (Beside (fun walk => walk.table = t) I) (t.acceptedKeys p fuel) fun keys =>
      ∀ k ∈ keys, K k := by
  induction fuel with
  | zero => exact .pure (by simp)
  | succ fuel ih =>
    refine .bind h.nextRow fun row? hrow => ?_
    cases row? with
    | none => exact .pure (by simp)
    | some row =>
      refine .bind (.lift fun _ _ => trivial) fun accepted (_ : True) => .bind ih fun rest hrest => ?_
      refine .pure ?_
      cases accepted with
      | false => exact hrest
      | true => exact List.forall_mem_cons.2 ⟨h.keyOf row (hrow row rfl), hrest⟩

theorem matchingKeys (h : t.Upholds pin I K Q) (p : Option Predicate) :
    Action.Keeps I (t.matchingKeys p) fun keys => ∀ k ∈ keys, K k := by
  cases p with
  | none => exact h.keys
  | some p =>
    refine .bind (.get fun _ _ => trivial) fun s (_ : True) => ?_
    have hkeys := h.acceptedKeys p ((t.store s).rowCount + 1)
    exact keeps_resume (rfl : t.walk.table = t) hkeys

theorem deleteEach (h : t.Upholds pin I K Q) {keys : List Entry} (hkeys : ∀ k ∈ keys, K k) :
    Action.Keeps I (t.deleteEach pin keys) fun _ => True := by
  induction keys with
  | nil => exact .pure trivial
  | cons key rest ih =>
    exact .bind (h.delete (hkeys key (by simp))) fun _ _ => ih fun k hk => hkeys k (by simp [hk])

theorem deleteWhere (h : t.Upholds pin I K Q) (p : Option Predicate) :
    Action.Keeps I (t.deleteWhere p pin) fun _ => True :=
  .bind (h.matchingKeys p) fun _ hkeys => .bind (h.deleteEach hkeys) fun _ _ => .pure trivial

theorem setEach (h : t.Upholds pin I K Q) {column : Nat} {value : Entry}
    (hadmits : ∀ c, t.schema.columns[column]? = some c → c.Admits value) {keys : List Entry}
    (hkeys : ∀ k ∈ keys, K k) : Action.Keeps I (t.setEach column value pin keys) fun _ => True := by
  induction keys with
  | nil => exact .pure trivial
  | cons key rest ih =>
    exact .bind (h.setColumn (hkeys key (by simp)) hadmits) fun _ _ =>
      ih fun k hk => hkeys k (by simp [hk])

theorem updateWhere (h : t.Upholds pin I K Q) (name : String) (value : Operand)
    (p : Option Predicate) : Action.Keeps I (t.updateWhere name value p pin) fun _ => True := by
  refine .bind (.lift fun _ hvalue => columnValue_admits hvalue) fun _ hadmits => ?_
  exact .bind (h.matchingKeys p) fun _ hkeys => .bind (h.setEach hadmits hkeys) fun _ _ =>
    .pure trivial

end Upholds

/-! ## Steady invariants -/

/-- What a call on a table does to the tablespace. -/
structure Advances (t : Table) (s s' : Tablespace) : Prop where
  stands : t.Stands s'
  shelf : Shelf.Advances t.schema (t.shelf s) (t.shelf s')
  others : ∀ u, u.Stands s → t.Apart u → u.Stands s' ∧ u.contents s' = u.contents s

/-- An invariant that holds as long as a table is worked on by calls only. -/
structure Steady (t : Table) (I : Tablespace → Prop) : Prop where
  proper : t.schema.Proper
  stands : ∀ {s}, I s → t.Stands s
  binds : ∀ {s}, I s → ∀ b ∈ (t.contents s).toList, t.schema.Binds b
  advances : ∀ {s s'}, I s → t.Advances s s' → I s'

namespace Steady

variable {t : Table} {I : Tablespace → Prop} {α : Type} {P : α → Prop}

/-- An operation on the rows of the table keeps a steady invariant. -/
theorem onStore (h : t.Steady I) {action : Action Shelf α}
    (ha : ∀ sh, Shelf.Sound t.keyType t.primaryIndex 0 sh → sh.Binds t.schema →
      ∃ r sh', action.run sh = (r, sh') ∧ Shelf.Advances t.schema sh sh' ∧ ∀ x, r = .ok x → P x) :
    Action.Keeps I (t.onStore action) P := by
  refine .of_run fun s hs => ?_
  have hstands := h.stands hs
  obtain ⟨r, sh, hrun, hadvances, hpost⟩ := ha _ hstands.sound (h.binds hs)
  obtain ⟨s', hrun', hshelf, hstands', hothers⟩ :=
    hstands.onStore hrun hadvances.sound hadvances.frame
  exact ⟨r, s', hrun', h.advances hs ⟨hstands', hshelf ▸ hadvances, hothers⟩, hpost⟩

/-- What an operation on the rows of the table has made of the shelf is the shelf afterwards. -/
theorem onStore_run {s : Tablespace} {action : Action Shelf α} {r : Result α} {sh : Shelf} (hs : I s)
    (hkeeps : Action.Keeps I (t.onStore action) P) (hrun : action.run (t.shelf s) = (r, sh)) :
    (t.onStore action).run s = (r, t.withShelf s sh) ∧ I (t.withShelf s sh) ∧
      t.contents (t.withShelf s sh) = sh.rows t.primaryIndex := by
  have houter : (t.onStore action).run s = (r, t.withShelf s sh) := by
    rw [run_onStore, hrun]
    rfl
  have hkept := (hkeeps s hs).1
  rw [houter] at hkept
  exact ⟨houter, hkept, by rw [contents, shelf_withShelf]⟩

/-! ## Bindings -/

theorem get?_contents (h : t.Steady I) {s : Tablespace} (hs : I s) {key : Entry} {row : Row}
    (hrow : (key, row) ∈ (t.contents s).toList) : (t.contents s).get? key = some row :=
  SortedMap.get?_of_mem (Entry.orderedOn_fits _) (h.stands hs).ascending hrow

theorem key_eq (h : t.Steady I) {s : Tablespace} (hs : I s) {b : Entry × Row}
    (hb : b ∈ (t.contents s).toList) : b.1 = b.2.keyAt t.primaryIndex :=
  (h.binds hs b hb).key

/-! ## Single rows -/

theorem insertRow (h : t.Steady I) {values : List Entry}
    (hfits : List.Forall₂ Column.Admits t.schema.columns values) (pin : Bool) :
    Action.Keeps I (t.onStore (Shelf.insertRow values t.primaryIndex pin)) fun _ => True := by
  refine h.onStore fun sh hsound hbinds => ?_
  obtain ⟨r, sh', hrun, hadvances⟩ := hsound.advances_insertRow hbinds h.proper hfits pin
  exact ⟨r, sh', hrun, hadvances, fun _ _ => trivial⟩

theorem delete (h : t.Steady I) {key : Entry} (hkey : key.fits t.keyType) (pin : Bool) :
    Action.Keeps I (t.delete key pin) fun _ => True := by
  refine h.onStore fun sh hsound hbinds => ?_
  obtain ⟨r, sh', hrun, hadvances⟩ := hsound.advances_deleteRow hbinds hkey pin
  exact ⟨r, sh', hrun, hadvances, fun _ _ => trivial⟩

theorem updateRow (h : t.Steady I) {key : Entry} (hkey : key.fits t.keyType) {targets : List Nat}
    {values : List Entry} (hdistinct : targets.Nodup)
    (hadmits : ∀ a ∈ targets.zip values, ∀ c, t.schema.columns[a.1]? = some c → c.Admits a.2)
    (pin : Bool) :
    Action.Keeps I (t.onStore (Shelf.updateRow key t.primaryIndex targets values pin))
      fun _ => True := by
  refine h.onStore fun sh hsound hbinds => ?_
  obtain ⟨r, sh', hrun, hadvances⟩ :=
    hsound.advances_updateRow hbinds h.proper hkey hdistinct hadmits pin
  exact ⟨r, sh', hrun, hadvances, fun _ _ => trivial⟩

theorem get (h : t.Steady I) (key : Entry) :
    Action.Keeps I (t.get key) fun row => row.Fits t.schema :=
  h.onStore fun _ hsound hbinds => hsound.advances_getRow hbinds key

theorem persist (h : t.Steady I) : Action.Keeps I t.persist fun _ => True := by
  refine h.onStore fun sh hsound hbinds => ?_
  obtain ⟨r, sh', hrun, hadvances⟩ := hsound.advances_persist hbinds
  exact ⟨r, sh', hrun, hadvances, fun _ _ => trivial⟩

theorem unpin (h : t.Steady I) {s : Tablespace} (hs : I s) : I (s.unpin t.number) := by
  have hstands := h.stands hs
  have hlive : (t.store s).index = some (t.shelf s).index := hstands.sound.live
  obtain ⟨store, hstore⟩ : ∃ store, s.stores.get? t.number = some store := by
    cases hget : s.stores.get? t.number with
    | none => simp [Table.store, hget] at hlive
    | some store => exact ⟨store, rfl⟩
  have hshelf : t.shelf (s.unpin t.number) = { t.shelf s with store := (t.store s).unpin } := by
    simp [shelf, Table.store, Tablespace.unpin, SortedMap.get?_modify_eq, hstore]
  have hothers (u : Table) (hne : t.number ≠ u.number) : u.store (s.unpin t.number) = u.store s := by
    simp [Table.store, Tablespace.unpin, SortedMap.get?_modify_eq, Ne.symm hne]
  have hadvances := hstands.sound.advances_unpin (h.binds hs)
  obtain ⟨hstands', happart⟩ :=
    hstands.advance hothers (hshelf ▸ hadvances.sound) (hshelf ▸ hadvances.frame)
  exact h.advances hs ⟨hstands', hshelf ▸ hadvances, happart⟩

/-! ## Reading -/

theorem keys (h : t.Steady I) : Action.Keeps I t.keys fun keys => ∀ k ∈ keys, k.fits t.keyType := by
  refine .of_run fun s hs => ⟨_, s, (h.stands hs).keys, hs, ?_⟩
  rintro _ ⟨⟩ k hk
  obtain ⟨b, hb, rfl⟩ := List.mem_map.1 hk
  exact (h.stands hs).ascending.holds b hb

/-- What the operations on single rows keep, the calls keep. -/
theorem upholds (h : t.Steady I) (pin : Bool) :
    t.Upholds pin I (fun key => key.fits t.keyType) fun row => row.Fits t.schema where
  get := h.get
  keys := h.keys
  keyOf _ hrow := (hrow.primary h.proper).1.fits
  insertRow hfits := h.insertRow hfits pin
  delete hkey := h.delete hkey pin
  setColumn hkey hadmits :=
    h.updateRow hkey (List.nodup_singleton _) (by simpa using hadmits) pin

theorem update (h : t.Steady I) {key : Entry} (hkey : key.fits t.keyType)
    {assignments : List (String × Entry)} (hnames : (assignments.map Prod.fst).Nodup) (pin : Bool) :
    Action.Keeps I (t.update key assignments pin) fun _ => True := by
  refine .bind (.lift fun _ hresolved => hresolved) fun resolved hresolved => ?_
  have hzip : (resolved.map Prod.fst).zip (resolved.map Prod.snd) = resolved := by
    simp [List.zip_map']
  refine h.updateRow hkey (nodup_targets hresolved hnames) ?_ pin
  rw [hzip]
  exact admits_of_resolved hresolved

/-! ## All calls -/

/-- Every call keeps what the work on the table keeps, whether it fails or not. -/
theorem call (h : t.Steady I) {c : TableCall} (hc : c.Typed t) :
    Action.Keeps I (t.call c) fun _ => True := by
  cases c with
  | insert entries pin => exact (h.upholds pin).insert entries
  | insertLiterals names literals pin => exact (h.upholds pin).insertLiterals names literals
  | update key assignments pin => exact h.update hc.1 hc.2 pin
  | updateWhere column value filter pin =>
    exact .bind ((h.upholds pin).updateWhere column value filter) fun _ _ => .pure trivial
  | delete key pin => exact h.delete hc pin
  | deleteWhere filter pin =>
    exact .bind ((h.upholds pin).deleteWhere filter) fun _ _ => .pure trivial
  | get key => exact .bind (h.get key) fun _ _ => .pure trivial
  | nextKey walk => exact .bind (keeps_resume hc keeps_nextKey) fun _ _ => .pure trivial
  | nextRow walk => exact .bind (keeps_resume hc (h.upholds false).nextRow) fun _ _ => .pure trivial
  | unpin => exact fun s hs => ⟨h.unpin hs, fun _ _ => trivial⟩
  | persist => exact .bind h.persist fun _ _ => .pure trivial

end Steady

end Table

end PageDb
