import PageDb.Proofs.Store.Kinds
import PageDb.Proofs.Table.Reopening

/-!
Every stored row conforms to the schema.

`Table.Tended` is a run of calls on a table through any of its handles, with keys of any type and with
columns that are assigned more than once, so it may leave the index in a state in which rows are not
found under their own keys.  The entries of the rows fit the schema all the same: `Table.Fitting` says
so of the rows in memory and of those in the page files, which loading does not check.
-/

namespace PageDb

open PageDb.Action (Keeps)

/-- Whether a column takes an entry: null if it allows null, and values of its type that are not too
long. -/
def Column.Takes (c : Column) (e : Entry) : Prop :=
  e = .null ∧ c.notNull = false ∨
    e.type? = some c.type ∧
      ∀ limit text, c.maxLength = some limit → e = .text text → text.length ≤ limit

/-- A row with exactly one entry per column, which the column takes, and with a primary entry that is
not null. -/
structure Row.Conforms (row : Row) (s : Schema) : Prop where
  width : row.entries.length = s.columns.length
  entries : ∀ (i : Nat) (c : Column) (e : Entry),
    s.columns[i]? = some c → row.entries[i]? = some e → c.Takes e
  primary : ∃ e, row.entries[s.primaryIndex]? = some e ∧ e ≠ .null

theorem Column.Admits.takes {c : Column} {e : Entry} (h : c.Admits e) : c.Takes e := by
  rcases h.fits with hnull | htype
  · refine .inl ⟨hnull, ?_⟩
    cases hnot : c.notNull with
    | false => rfl
    | true => exact absurd hnull (h.notNull hnot)
  · refine .inr ⟨htype, ?_⟩
    rintro limit text hlimit rfl
    have hlength := h.length
    simp only [Column.exceeds, hlimit] at hlength
    exact Nat.le_of_not_lt (of_decide_eq_false hlength)

/-- A row that fits a schema conforms to it, if the primary column excludes null. -/
theorem Row.Fits.conforms {row : Row} {s : Schema} (h : row.Fits s) (hs : s.Proper) :
    row.Conforms s := by
  have hlt := h.primaryIndex_lt hs
  obtain ⟨hlength, hadmits⟩ := forall₂_iff_getElem?.1 h
  obtain ⟨c, hc, hnot⟩ := hs
  have hentry := List.getElem?_eq_getElem hlt
  exact ⟨hlength.symm, fun i d e hd he => (hadmits i d e hd he).takes,
    _, hentry, (hadmits _ c _ hc hentry).notNull hnot⟩

/-- Any call of a table, whose keys may be of any type and whose assignments may repeat; a walk is one
of the table. -/
def TableCall.Of (t : Table) : TableCall → Prop
  | .nextKey walk => walk.table = t
  | .nextRow walk => walk.table = t
  | _ => True

namespace Table

/-- Entries that the columns of the table admit. -/
def Suits (t : Table) (entries : List Entry) : Prop :=
  List.Forall₂ Column.Admits t.schema.columns entries

/-- The stores of some handles to a table hold rows that fit the schema only, and so do the page
files. -/
structure Fitting (t : Table) (handles : List Nat) (s : Tablespace) : Prop where
  stores : ∀ n ∈ handles, ((t.withNumber n).store s).Only t.Suits t.database t.name
  disk : s.disk.Only t.Suits t.database t.name

/-- A run of calls on a table through its handles.  It is created, and it may be opened again at any
time; others may forget handles, and do what changes no page file of the table. -/
inductive Tended (t : Table) (s₀ : Tablespace) : List Nat → Tablespace → Prop where
  | create (config : Config) (n : Nat) : Tended t s₀ [n] (s₀.create config (t.withNumber n))
  | call {handles : List Nat} {s : Tablespace} {n : Nat} {c : TableCall}
      (h : Tended t s₀ handles s) (hn : n ∈ handles) (hc : c.Of (t.withNumber n)) :
      Tended t s₀ handles (((t.withNumber n).call c).run s).2
  | reopen {handles : List Nat} {s : Tablespace} (h : Tended t s₀ handles s) (config : Config)
      (n : Nat) : Tended t s₀ (n :: handles)
        ((t.withNumber n).recover.run (s.create config (t.withNumber n))).2
  | others {handles handles' : List Nat} {s s' : Tablespace} (h : Tended t s₀ handles s)
      (hhandles : handles' ⊆ handles)
      (hstores : ∀ n ∈ handles', (t.withNumber n).store s' = (t.withNumber n).store s)
      (hordered : s'.disk.directory.Ordered)
      (hread : ∀ n, s'.disk.directory.read? (PageFile.name t.database t.name n) =
        s.disk.directory.read? (PageFile.name t.database t.name n)) :
      Tended t s₀ handles' s'

variable {t : Table} {handles : List Nat} {n : Nat} {s s' : Tablespace} {α : Type} {P : α → Prop}

namespace Fitting

/-- Work on the store of one handle leaves the stores of the others alone. -/
theorem keeps_onStore (hn : n ∈ handles) {action : Action Shelf α}
    (ha : Keeps (Shelf.Only t.Suits t.database t.name) action P) :
    Keeps (t.Fitting handles) ((t.withNumber n).onStore action) P := by
  intro s h
  obtain ⟨hafter, hpost⟩ := ha ((t.withNumber n).shelf s) ⟨h.stores n hn, h.disk⟩
  refine ⟨⟨fun m hm => ?_, hafter.disk⟩, hpost⟩
  by_cases hmn : m = n
  · have hshelf := shelf_withShelf (t.withNumber n) s (action.run ((t.withNumber n).shelf s)).2
    have hstore := congrArg Shelf.store hshelf
    rw [hmn]
    exact hstore.symm.subst (motive := fun st => st.Only t.Suits t.database t.name) hafter.store
  · have hstore := store_withShelf_of_ne (t := t.withNumber n) (u := t.withNumber m)
      (fun heq => hmn heq.symm) s (action.run ((t.withNumber n).shelf s)).2
    exact hstore.symm.subst (motive := fun st => st.Only t.Suits t.database t.name) (h.stores m hm)

/-- Work on the disk alone. -/
theorem keeps_onDisk {action : Action Disk α}
    (ha : Keeps (Disk.Only t.Suits t.database t.name) action P) :
    Keeps (t.Fitting handles) (Tablespace.onDisk action) P := by
  intro s h
  obtain ⟨hafter, hpost⟩ := ha s.disk h.disk
  exact ⟨⟨h.stores, hafter⟩, hpost⟩

/-- A new handle has no rows yet. -/
theorem create (h : t.Fitting handles s) (config : Config) (n : Nat) :
    t.Fitting (n :: handles) (s.create config (t.withNumber n)) := by
  refine ⟨fun m hm => ?_, h.disk⟩
  by_cases hmn : m = n
  · have hstore := congrArg Shelf.store (shelf_create s config (t.withNumber n))
    rw [hmn]
    exact hstore.symm.subst (motive := fun st => st.Only t.Suits t.database t.name)
      (Store.Only.newStore config t.database t.name)
  · rw [store_create_of_ne (t := t.withNumber n) (u := t.withNumber m) (fun heq => hmn heq.symm)]
    exact h.stores m ((List.mem_cons.1 hm).resolve_left hmn)

/-! ## Calls -/

theorem upholds (hn : n ∈ handles) (pin : Bool) :
    (t.withNumber n).Upholds pin (t.Fitting handles) (fun _ => True) fun row => t.Suits row.entries where
  get key := keeps_onStore hn (Shelf.onlyKind_loads.keeps_getRow key _)
  keys := fun s h => ⟨h, fun _ _ _ _ => trivial⟩
  keyOf _ _ := trivial
  insertRow hfits := keeps_onStore hn (Shelf.onlyKind_loads.keeps_insertRow hfits _ fun _ => trivial)
  delete _ := keeps_onStore hn (Shelf.onlyKind_loads.keeps_deleteRow _ _ fun _ => trivial)
  setColumn _ hadmits := by
    refine keeps_onStore hn (Shelf.onlyKind_loads.keeps_updateRow _ _ (fun entries hentries => ?_)
    fun _ => trivial)
    have hrow : Row.Fits ⟨entries, 0⟩ t.schema := hentries
    refine hrow.assign fun a ha => ?_
    obtain rfl := List.mem_singleton.1 ha
    exact hadmits

/-- Columns may be assigned more than once. -/
theorem keeps_update (hn : n ∈ handles) (key : Entry) (assignments : List (String × Entry))
    (pin : Bool) :
    Keeps (t.Fitting handles) ((t.withNumber n).update key assignments pin) fun _ => True := by
  refine .bind (.lift fun _ hresolved => hresolved) fun resolved hresolved => ?_
  refine keeps_onStore hn (Shelf.onlyKind_loads.keeps_updateRow _ _ (fun entries hentries => ?_)
    fun _ => trivial)
  have hrow : Row.Fits ⟨entries, 0⟩ t.schema := hentries
  have hzip : (resolved.map Prod.fst).zip (resolved.map Prod.snd) = resolved := by
    simp [List.zip_map']
  rw [hzip]
  exact hrow.assign (admits_of_resolved hresolved)

theorem unpin (h : t.Fitting handles s) (n : Nat) : t.Fitting handles (s.unpin n) := by
  refine ⟨fun m hm => ?_, h.disk⟩
  have hold := h.stores m hm
  unfold Table.store at hold ⊢
  rw [show (s.unpin n).stores.get? (t.withNumber m).number = _ from SortedMap.get?_modify_eq _ _ _ _]
  split
  · cases hstore : s.stores.get? (t.withNumber m).number with
    | none => rwa [hstore] at hold
    | some store =>
      rw [hstore] at hold
      exact hold.alike store.alike_unpin
  · exact hold

theorem keeps_call (hn : n ∈ handles) {c : TableCall} (hc : c.Of (t.withNumber n)) :
    Keeps (t.Fitting handles) ((t.withNumber n).call c) fun _ => True := by
  cases c with
  | insert entries pin => exact (upholds hn pin).insert entries
  | insertLiterals names literals pin => exact (upholds hn pin).insertLiterals names literals
  | update key assignments pin => exact keeps_update hn key assignments pin
  | updateWhere column value filter pin =>
    exact .bind ((upholds hn pin).updateWhere column value filter) fun _ _ => .pure trivial
  | delete key pin => exact (upholds hn pin).delete trivial
  | deleteWhere filter pin =>
    exact .bind ((upholds hn pin).deleteWhere filter) fun _ _ => .pure trivial
  | get key => exact .bind ((upholds hn false).get key) fun _ _ => .pure trivial
  | nextKey walk => exact .bind (keeps_resume hc keeps_nextKey) fun _ _ => .pure trivial
  | nextRow walk => exact .bind (keeps_resume hc (upholds hn false).nextRow) fun _ _ => .pure trivial
  | unpin => exact fun s hs => ⟨hs.unpin n, fun _ _ => trivial⟩
  | persist => exact .bind (keeps_onStore hn Shelf.onlyKind_loads.keeps_persist) fun _ _ => .pure trivial

/-! ## Opening the table again -/

theorem keeps_openGap (hn : n ∈ handles) (count : Nat) :
    Keeps (t.Fitting handles) ((t.withNumber n).openGap count) fun _ => True := by
  induction count with
  | zero => exact .pure trivial
  | succ count ih =>
    have hnone : ∀ r ∈ ([] : List Row), t.Suits r.entries := nofun
    exact .bind (keeps_onStore hn (Shelf.onlyKind_loads.keeps_insertPage hnone _)) fun _ _ => ih

/-- Pages are loaded without a check, but what is in their files fits. -/
theorem keeps_loadPages (hn : n ∈ handles) (expected : Nat) (pages : List Nat) :
    Keeps (t.Fitting handles) ((t.withNumber n).loadPages expected pages) fun _ => True := by
  induction pages generalizing expected with
  | nil => exact .pure trivial
  | cons page rest ih =>
    apply Keeps.bind (keeps_openGap hn _)
    intro _ _
    apply Keeps.bind (keeps_onDisk (Disk.Only.keeps_read_page page))
    intro image himage
    apply Keeps.bind (.lift himage)
    intro rows hrows
    exact .bind (keeps_onStore hn (Shelf.onlyKind_loads.keeps_insertPage hrows _)) fun _ _ => ih _

theorem keeps_recover (hn : n ∈ handles) :
    Keeps (t.Fitting handles) (t.withNumber n).recover fun _ => True := by
  refine .bind (keeps_onDisk (P := fun _ => True) fun d hd => ?_) fun pages _ =>
    keeps_loadPages hn 1 pages
  unfold Disk.pageNumbers
  rw [Action.run_bind_ok (Action.run_get d)]
  split
  · exact ⟨hd, fun _ _ => trivial⟩
  · exact ⟨hd, fun _ _ => trivial⟩

end Fitting

theorem Tended.calls {s₀ : Tablespace} (h : t.Tended s₀ handles s) (hn : n ∈ handles)
    {calls : List TableCall} (hcalls : ∀ c ∈ calls, c.Of (t.withNumber n)) :
    t.Tended s₀ handles (calls.foldl (fun s c => (((t.withNumber n).call c).run s).2) s) := by
  induction calls generalizing s with
  | nil => exact h
  | cons c rest ih => exact ih (h.call hn (hcalls c (by simp))) fun d hd => hcalls d (by simp [hd])

/-- The rows of a table that began without page files fit its schema after every run of calls. -/
theorem Tended.fitting {s₀ : Tablespace} (hordered : s₀.disk.directory.Ordered)
    (hfree : ∀ n, s₀.disk.directory.read? (PageFile.name t.database t.name n) = none)
    (h : t.Tended s₀ handles s) : t.Fitting handles s := by
  induction h with
  | create config n =>
    have hnone : t.Fitting [] s₀ := by
      refine ⟨nofun, hordered, fun n image rows himage => ?_⟩
      rw [hfree n] at himage
      cases himage
    exact hnone.create config n
  | call _ hn hc ih => exact (Fitting.keeps_call hn hc _ ih).1
  | reopen _ config n ih =>
    exact (Fitting.keeps_recover List.mem_cons_self _ (ih.create config n)).1
  | others _ hhandles hstores hordered hread ih =>
    refine ⟨fun n hn => ?_, ih.disk.congr hordered hread⟩
    rw [hstores n hn]
    exact ih.stores n (hhandles hn)

/-- In a table that is created where it has no page files, with a schema made of columns of which the
primary one excludes null, every row that is got or that a walk answers conforms to the schema, after
every run of calls through any of its handles, however often it has been opened again. -/
theorem conforms_of_tended {columns : List Column} {s₀ : Tablespace}
    (hschema : Schema.ofColumns columns = .ok t.schema)
    (hprimary : ∀ c ∈ columns, c.primary = true → c.notNull = true)
    (hordered : s₀.disk.directory.Ordered)
    (hfree : ∀ n, s₀.disk.directory.read? (PageFile.name t.database t.name n) = none)
    (h : t.Tended s₀ handles s) (hn : n ∈ handles) :
    (∀ key row, (((t.withNumber n).get key).run s).1 = .ok row → row.Conforms t.schema) ∧
      ∀ walk row, walk.table = t.withNumber n → (Walk.nextRow.run (walk, s)).1 = .ok (some row) →
        row.Conforms t.schema := by
  have hproper := Schema.proper_of_ofColumns hschema hprimary
  have hfitting := h.fitting hordered hfree
  have hupholds := Fitting.upholds (t := t) hn false
  refine ⟨fun key row hrow => ?_, fun walk row hwalk hrow => ?_⟩
  · have hfits : row.Fits t.schema := (hupholds.get key s hfitting).2 row hrow
    exact hfits.conforms hproper
  · have hfits : row.Fits t.schema :=
      (hupholds.nextRow (walk, s) ⟨hwalk, hfitting⟩).2 _ hrow row rfl
    exact hfits.conforms hproper

/-- The columns of a table of labels with at most five characters. -/
def tagColumns : List Column :=
  [({ name := "id", type := .int } : Column).asPrimary,
    { name := "label", type := .text, maxLength := some 5 }]

/-- A table of labels. -/
def tags : Table where
  number := 1
  database := "shop"
  name := "tags"
  schema := ⟨tagColumns, 0⟩

/-- Calls that open two pages, of which one may be in memory: a long is stored as an int, a key is of
another type than the column, and a column is assigned twice. -/
def tagCalls : List TableCall :=
  [.insert [.long 7, .null] false, .insertLiterals none ["3", "tape"] true,
    .update (.text "7") [("label", .text "box")] false, .unpin,
    .update (.int 7) [("label", .text "box"), ("label", .text "crate")] false, .persist]

/-- The table after the calls. -/
def tagged : Tablespace :=
  tagCalls.foldl (fun s c => (((tags.withNumber 1).call c).run s).2)
    (Tablespace.create {} { budget := 6, cap := 1 } (tags.withNumber 1))

/-- A second handle, opened on the two page files. -/
def tagsReopened : Tablespace :=
  ((tags.withNumber 2).recover.run
    (tagged.create { budget := 9, cap := 1 } (tags.withNumber 2))).2

/-- The row that was changed conforms to the schema when it is got through the second handle. -/
theorem conforms_of_tended_tags :
    tags.Tended {} [2, 1] tagsReopened ∧
      (((tags.withNumber 2).get (.int 7)).run tagsReopened).1 = .ok ⟨[.int 7, .text "crate"], 1⟩ ∧
      Row.Conforms ⟨[.int 7, .text "crate"], 1⟩ tags.schema := by
  have htended : tags.Tended {} [2, 1] tagsReopened := by
    refine .reopen (Tended.calls (.create _ 1) List.mem_cons_self ?_) _ 2
    simp [tagCalls, TableCall.Of]
  -- sorting the page numbers does not evaluate, loading the pages does
  have hload {s : Tablespace} (hpages : (Disk.pageNumbers "shop" "tags").run s.disk =
      (.ok (List.range' 1 2), s.disk)) (config : Config) :
      (tags.withNumber 2).recover.run (s.create config (tags.withNumber 2)) =
        ((tags.withNumber 2).loadPages 1 [1, 2]).run (s.create config (tags.withNumber 2)) :=
    run_recover hpages
  have hreopened : tagsReopened = (((tags.withNumber 2).loadPages 1 [1, 2]).run
      (tagged.create { budget := 9, cap := 1 } (tags.withNumber 2))).2 := by
    obtain ⟨files, hfiles, hnumbers⟩ : ∃ files, tagged.disk.directory.files = some files ∧
        files.keys.filterMap (PageFile.number? "shop" "tags") = List.range' 1 2 :=
      Option.map_eq_some_iff.1 (by decide +kernel : (tagged.disk.directory.files.map fun files =>
        files.keys.filterMap (PageFile.number? "shop" "tags")) = some [1, 2])
    have hpages := Disk.run_pageNumbers hfiles (.of_eq hnumbers)
    exact congrArg Prod.snd (hload hpages _)
  have hget : (((tags.withNumber 2).get (.int 7)).run tagsReopened).1 =
      .ok ⟨[.int 7, .text "crate"], 1⟩ := by
    rw [hreopened]
    decide +kernel
  have hfree (n : Nat) : ({} : Tablespace).disk.directory.read?
      (PageFile.name tags.database tags.name n) = none := Directory.read?_empty _
  have hschema : Schema.ofColumns tagColumns = .ok tags.schema := rfl
  have hrows := conforms_of_tended hschema (by decide) Directory.ordered_empty hfree htended
    List.mem_cons_self
  exact ⟨htended, hget, hrows.1 _ _ hget⟩

end Table

end PageDb
