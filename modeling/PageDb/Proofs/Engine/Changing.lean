import PageDb.Proofs.Engine.StrictLocking
import PageDb.Proofs.Table.Deleting
import PageDb.Proofs.Table.Display
import PageDb.Proofs.Table.Updating

/-!
Updates and deletions of the rows that a filter accepts, in the tables that sessions have worked on.

Whatever the sessions have done, and in whatever order, a table displays its rows.  A deletion removes
all rows of which the filter is true, or none.  An update changes one column of these rows and no other
row, and fails only if it would give a key to a row while another row has it.
-/

namespace PageDb

namespace Engine

variable {config : Config} {disk : Disk} {e : Engine} {j : Journal} {t : Table}

/-- The tables that sessions have worked on are neat, and work on one of them keeps them so. -/
theorem Logged.steady (h : Logged config disk e j) (hdisk : disk.directory.Ordered)
    (hapart : Table.AllApart e.allTables) (ht : t ∈ e.allTables) :
    e.space.Neat e.allTables ∧ t.Steady (Tablespace.Neat e.allTables) := by
  have hneat := (h.steadfast hdisk).neat hapart
  exact ⟨hneat, Tablespace.steady_neat ht (hneat.orderly.proper t ht)⟩

/-- What an update does, whatever the sessions have done before and as long as no two tables share page
files.  Let its value be one for the column, and let the filter be able to judge every row.  If the
update succeeds it answers how many rows the filter is true of; these have the value in the column and
are as they were otherwise, and so are all other rows.  It succeeds for every column but the primary
one, and for that one exactly if there is no such row, or one such row and the value is its key or the
key of no row. -/
theorem updates_chosen_rows (hdisk : disk.directory.Ordered) (h : Logged config disk e j)
    (hapart : Table.AllApart e.allTables) (ht : t ∈ e.allTables) {name : String} {operand : Operand}
    {column : Nat} {value : Entry} (hvalue : t.columnValue name operand = .ok (column, value))
    (filter : Option Predicate) (pin : Bool) :
    ∃ rows r s', t.Displays rows e.space ∧
      (t.updateWhere name operand filter pin).run e.space = (r, s') ∧
      ((∀ row ∈ rows, ∃ truth, t.judge filter row = .ok truth) →
        ((∃ n, r = .ok n) ↔
          t.Assignable column value ((t.chosen filter rows).map t.keyOf) (rows.map t.keyOf)) ∧
        ∀ n, r = .ok n → n = (t.chosen filter rows).length ∧ ∃ rows', t.Displays rows' s' ∧
          (∀ row ∈ rows, (row.withEntry column value).entries[column]? = some value) ∧
          rows'.Perm (rows.map fun row =>
            if t.judge filter row = .ok .yes then row.withEntry column value else row)) := by
  obtain ⟨hneat, hI⟩ := h.steady hdisk hapart ht
  rcases hrun : (t.updateWhere name operand filter pin).run e.space with ⟨r, s'⟩
  refine ⟨_, r, s', hI.displays hneat, rfl, fun hjudged => ?_⟩
  obtain ⟨r', s₁, hrun', hneat', hsucceeds, hchanges⟩ :=
    hI.updateWhere_judged hneat hvalue hjudged pin
  obtain ⟨rfl, rfl⟩ := Prod.mk.inj (hrun.symm.trans hrun')
  rw [← Table.keys_eq_map_keyOf (hI.binds hneat)]
  refine ⟨hsucceeds, fun n hn => ?_⟩
  obtain ⟨hcount, hperm⟩ := hchanges n hn
  refine ⟨hcount, _, hI.displays hneat', fun row hrow => ?_, hperm⟩
  have hwidth : t.schema.columns.length = row.entries.length :=
    (hneat.orderly.fits ht hrow).length_eq
  have hcolumn := Table.columnValue_lt hvalue
  rw [Row.withEntry, List.getElem?_set_self (by omega)]

/-- A comparison of labels. -/
def labelled (relation : Relation) (label : String) : Predicate :=
  .compare ⟨.column "label", relation, .text label⟩

/-- A session fills a table of items, removes one of them and, in a transaction, changes another one. -/
def shopping : List Move :=
  [.createDatabase "shop", .connect "shop", .execute 1 (.createTable "items" Table.stock.schema),
    .execute 1
      (.insert "items" none [["7", "box"], ["-3", "tape"], ["12", "null"], ["20", "twine"]]),
    .execute 1 (.delete "items" (some (labelled .eq "twine"))),
    .execute 1 (.select ["items"] none [] none), .beginTransaction 1,
    .execute 1 (.update "items" "label" (.text "crate") (some (labelled .eq "box")))]

/-- The engine after that, with room for one page in memory. -/
def shopped : Engine := shopping.foldl after (.start { budget := 12, cap := 1 } {})

/-- The items that are left, each on a page of its own. -/
def shoppedItems : List Row :=
  [⟨[.int (-3), .text "tape"], 2⟩, ⟨[.int 7, .text "crate"], 1⟩, ⟨[.int 12, .null], 3⟩]

theorem run_shopping : Engine.allowsAll (.start { budget := 12, cap := 1 } {}) shopping = true ∧
    shopped.allTables = [Table.stock] ∧
    (Table.stock.rows.run shopped.space).1 = .ok shoppedItems := by decide +kernel

theorem logged_shopped : ∃ j, Logged { budget := 12, cap := 1 } {} shopped j :=
  ⟨_, Logged.start.moves run_shopping.1 (by decide +kernel)⟩

/-- There is no other table. -/
theorem apart_shopped :
    Table.AllApart shopped.allTables ∧ Table.stock ∈ shopped.allTables := by
  rw [run_shopping.2.1]
  simp [Table.AllApart]

/-- What is known of the items one by one is known of all. -/
theorem judged_items {filter : Option Predicate} {truths : List Truth}
    (h : shoppedItems.map (Table.stock.judge filter) = truths.map .ok) :
    ∀ row ∈ shoppedItems, ∃ truth, Table.stock.judge filter row = .ok truth := by
  intro row hrow
  have hmem := List.mem_map_of_mem (f := Table.stock.judge filter) hrow
  rw [h] at hmem
  obtain ⟨truth, -, htruth⟩ := List.mem_map.1 hmem
  exact ⟨truth, htruth.symm⟩

/-- One item gets a new key; the filter is unknown of the item that has no label. -/
theorem updates_chosen_rows_shopped :
    ∃ s', (Table.stock.updateWhere "id" (.number (.ofInt .double 5))
        (some (labelled .eq "tape")) false).run shopped.space = (.ok 1, s') ∧
      ∃ rows', Table.stock.Displays rows' s' ∧ rows'.Perm
        [⟨[.int 5, .text "tape"], 2⟩, ⟨[.int 7, .text "crate"], 1⟩, ⟨[.int 12, .null], 3⟩] := by
  have hvalue : Table.stock.columnValue "id" (.number (.ofInt .double 5)) = .ok (0, .int 5) := by
    decide +kernel
  obtain ⟨j, hlogged⟩ := logged_shopped
  obtain ⟨rows, r, s', hdisplays, hrun, hupdates⟩ := updates_chosen_rows Directory.ordered_empty
    hlogged apart_shopped.1 apart_shopped.2 hvalue (some (labelled .eq "tape")) false
  obtain rfl := Except.ok.inj (run_shopping.2.2.symm.trans hdisplays.walk)
  have hjudged : shoppedItems.map (Table.stock.judge (some (labelled .eq "tape"))) =
      [Truth.yes, .no, .unknown].map .ok := by decide +kernel
  obtain ⟨hsucceeds, hchanges⟩ := hupdates (judged_items hjudged)
  obtain ⟨n, rfl⟩ := hsucceeds.2 (.inr (.inr ⟨.int (-3), by decide +kernel, .inr (by decide +kernel)⟩))
  obtain ⟨rfl, rows', hdisplays', -, hperm⟩ := hchanges n rfl
  exact ⟨s', hrun, rows', hdisplays', hperm.trans (.of_eq (by decide +kernel))⟩

/-- What a deletion does, whatever the sessions have done before and as long as no two tables share page
files.  If there is a row that the filter cannot judge it fails, and all rows are as they were.
Otherwise it answers how many rows the filter is true of, which are all rows if there is no filter, and
the rows of which it is false or unknown are left as they were. -/
theorem deletes_chosen_rows (hdisk : disk.directory.Ordered) (h : Logged config disk e j)
    (hapart : Table.AllApart e.allTables) (ht : t ∈ e.allTables) (filter : Option Predicate)
    (pin : Bool) :
    ∃ rows r s', t.Displays rows e.space ∧ (t.deleteWhere filter pin).run e.space = (r, s') ∧
      (∀ row ∈ rows, ∀ failure, t.judge filter row = .error failure →
        (∃ failure', r = .error failure') ∧ t.Displays rows s') ∧
      ((∀ row ∈ rows, ∃ truth, t.judge filter row = .ok truth) →
        r = .ok (t.chosen filter rows).length ∧
          t.Displays (rows.filter fun row => t.judge filter row ≠ .ok .yes) s') := by
  obtain ⟨hneat, hI⟩ := h.steady hdisk hapart ht
  rcases hrun : (t.deleteWhere filter pin).run e.space with ⟨r, s'⟩
  refine ⟨_, r, s', hI.displays hneat, rfl, fun row hrow failure hfailure => ?_, fun hjudged => ?_⟩
  · obtain ⟨failure', hfound⟩ := Table.exists_selected_error hrow hfailure
    obtain ⟨s₁, hrun', hneat', hcontents⟩ := hI.deleteWhere_unjudged hneat hfound pin
    obtain ⟨rfl, rfl⟩ := Prod.mk.inj (hrun.symm.trans hrun')
    exact ⟨⟨_, rfl⟩, hcontents ▸ hI.displays hneat'⟩
  · obtain ⟨s₁, hrun', hneat', hvalues⟩ := hI.deleteWhere_judged hneat hjudged pin
    obtain ⟨rfl, rfl⟩ := Prod.mk.inj (hrun.symm.trans hrun')
    exact ⟨rfl, hvalues ▸ hI.displays hneat'⟩

/-- One item is removed, and the item of which the filter is unknown stays. -/
theorem deletes_chosen_rows_shopped :
    ∃ s', (Table.stock.deleteWhere (some (labelled .ne "tape")) true).run shopped.space =
        (.ok 1, s') ∧
      Table.stock.Displays [⟨[.int (-3), .text "tape"], 2⟩, ⟨[.int 12, .null], 3⟩] s' := by
  obtain ⟨j, hlogged⟩ := logged_shopped
  obtain ⟨rows, r, s', hdisplays, hrun, -, hdeletes⟩ := deletes_chosen_rows Directory.ordered_empty
    hlogged apart_shopped.1 apart_shopped.2 (some (labelled .ne "tape")) true
  obtain rfl := Except.ok.inj (run_shopping.2.2.symm.trans hdisplays.walk)
  have hjudged : shoppedItems.map (Table.stock.judge (some (labelled .ne "tape"))) =
      [Truth.no, .yes, .unknown].map .ok := by decide +kernel
  obtain ⟨rfl, hleft⟩ := hdeletes (judged_items hjudged)
  have hcount : (Table.stock.chosen (some (labelled .ne "tape")) shoppedItems).length = 1 := by
    decide +kernel
  have hrows : (shoppedItems.filter fun row =>
      Table.stock.judge (some (labelled .ne "tape")) row ≠ .ok .yes) =
      [⟨[.int (-3), .text "tape"], 2⟩, ⟨[.int 12, .null], 3⟩] := by decide +kernel
  exact ⟨s', by rw [hrun, hcount], hrows ▸ hleft⟩

end Engine

end PageDb
