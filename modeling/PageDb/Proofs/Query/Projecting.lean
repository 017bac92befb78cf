import PageDb.Query.Projection
import PageDb.Proofs.Action
import PageDb.Proofs.Query.Naming
import PageDb.Proofs.Table.Fitting

/-!
Projections show the cells that their headers name.

Projections and predicates find columns apart from each other, and each counts for itself how many
columns stand in front of a table.  They come to the same places, and what a projection takes from
the rows of all tables side by side is what one would read off the tables one by one, without any
counting.
-/

namespace PageDb

/-! ## Two ways to find a column -/

namespace Projection

/-- A column that was found lies at its index behind the first column of its table. -/
theorem offset_column? (h : Heading) (table offset : Nat) (name : String) :
    (h.column? table offset name).map ColumnRef.offset =
      (h.schema.indexOf? name).map fun i => offset + i := by
  unfold Heading.column?
  cases hindex : h.schema.indexOf? name with
  | none => rfl
  | some i =>
    obtain ⟨hi, -⟩ := List.findIdx?_eq_some_iff_getElem.1 hindex
    simp [List.getElem?_eq_getElem hi]

/-- The columns of a name lie at the places of the name. -/
theorem map_offset_columnsNamed (name : String) (table offset : Nat) (headings : List Heading) :
    (Heading.columnsNamed name table offset headings).map ColumnRef.offset =
      placesNamed name offset headings := by
  induction headings generalizing table offset with
  | nil => rfl
  | cons h rest ih =>
    rw [Heading.columnsNamed, placesNamed, List.map_append, ih, ← offset_column? h table offset,
      Option.toList_map]

/-- Both walks stop at the same table, and have counted the same columns in front of it. -/
theorem map_tableNamed? (name : String) (table offset : Nat) (headings : List Heading) :
    (Heading.tableNamed? name table offset headings).map (fun b => (b.1, b.2.2)) =
      tableAt? name offset headings := by
  induction headings generalizing table offset with
  | nil => rfl
  | cons h rest ih =>
    unfold Heading.tableNamed? tableAt?
    split
    · rfl
    · exact ih (table + 1) (offset + h.width)

variable {headings : List Heading} {table column : String}

/-- A selector of a bare name and a bare name in a predicate find the same. -/
theorem select_bare (hcolumn : '.' ∉ column.toList) :
    select headings ⟨none, some column⟩ =
      (Heading.resolve headings column).map fun ref => [(ref.offset, column)] := by
  have hplaces := map_offset_columnsNamed column 0 0 headings
  unfold Heading.resolve
  rw [nameParts_bare hcolumn]
  simp only [select, Heading.resolveBare, ← hplaces]
  rcases Heading.columnsNamed column 0 0 headings with _ | ⟨ref, _ | ⟨ref', rest⟩⟩ <;> rfl

/-- A qualified selector and a qualified name in a predicate find the same. -/
theorem select_qualified (htable : '.' ∉ table.toList) (hcolumn : '.' ∉ column.toList) :
    select headings ⟨some table, some column⟩ =
      (Heading.resolve headings (table ++ "." ++ column)).map fun ref =>
        [(ref.offset, column)] := by
  have hfound : (Heading.findQualified? headings table column).map ColumnRef.offset =
      (tableAt? table 0 headings).bind fun b =>
        (b.1.schema.indexOf? column).map fun i => b.2 + i := by
    rw [← map_tableNamed? table 0 0 headings, Heading.findQualified?]
    cases Heading.tableNamed? table 0 0 headings with
    | none => rfl
    | some b => exact offset_column? b.1 b.2.1 b.2.2 column
  unfold Heading.resolve
  rw [nameParts_qualified htable hcolumn]
  simp only [select, ← hfound]
  cases Heading.findQualified? headings table column <;> rfl

end Projection

/-! ## The cells of a selector -/

namespace Selector

/-- The cells that a selector takes from the row of one table, each under the name of its column. -/
def cells (s : Selector) (joined : Bool) (h : Heading) (row : Row) : List (String × Entry) :=
  match s.column with
  | none => (h.schema.columns.zip row.entries).map fun b =>
      (if joined then h.qualify b.1.name else b.1.name, b.2)
  | some name => ((h.schema.columns.zip row.entries).filter fun b => b.1.name = name).map fun b =>
      (b.1.name, b.2)

/-- The tables that a selector is about: all of them, or the first one of a name. -/
def chosen (s : Selector) (tables : List (Heading × Row)) : List (Heading × Row) :=
  match s.table with
  | none => tables
  | some name => (tables.find? fun b => b.1.table = name).toList

/-- The cells that a selector shows of one row of each table. -/
def shows (s : Selector) (tables : List (Heading × Row)) : List (String × Entry) :=
  (s.chosen tables).flatMap fun b => s.cells (decide (1 < tables.length)) b.1 b.2

theorem cells_of_column {s : Selector} {name : String} (hs : s.column = some name) (joined : Bool)
    (h : Heading) (row : Row) :
    s.cells joined h row =
      ((h.schema.columns.zip row.entries).filter fun b => b.1.name = name).map fun b =>
        (b.1.name, b.2) := by
  rw [cells, hs]

/-- A selector of one table shows cells of its row. -/
theorem shows_of_find? {name : String} {column : Option String} {tables : List (Heading × Row)}
    {h : Heading} {row : Row}
    (hfind : tables.find? (fun b => b.1.table = name) = some (h, row)) :
    shows ⟨some name, column⟩ tables =
      cells ⟨some name, column⟩ (decide (1 < tables.length)) h row := by
  simp [shows, chosen, hfind]

end Selector

/-- The entries of a table's row lie in a list of entries from a place on. -/
structure Heading.Lies (h : Heading) (row : Row) (offset : Nat) (entries : List Entry) : Prop where
  width : row.entries.length = h.width
  entries : ∀ i, i < h.width → entries[offset + i]? = row.entries[i]?

/-- In rows side by side, the first row comes first and the others lie behind it. -/
theorem Heading.lies_of_drop {h : Heading} {row : Row} {offset : Nat} {entries rest : List Entry}
    (hwidth : row.entries.length = h.width)
    (hdrop : entries.drop offset = row.entries ++ rest) :
    h.Lies row offset entries ∧ entries.drop (offset + h.width) = rest := by
  constructor
  · refine ⟨hwidth, fun i hi => ?_⟩
    rw [← List.getElem?_drop, hdrop, List.getElem?_append_left (hwidth ▸ hi)]
  · rw [← List.drop_drop, hdrop, ← hwidth, List.drop_left]

namespace Projection

/-- The selected places hold the given cells, and have the headers of these. -/
def Reads (entries : List Entry) (columns : List (Nat × String)) (cells : List (String × Entry)) :
    Prop :=
  List.Forall₂ (fun column cell => column.2 = cell.1 ∧ entries[column.1]? = some cell.2) columns cells

variable {headings : List Heading} {rows : List Row} {entries : List Entry} {offset : Nat}
  {columns columns' : List (Nat × String)} {shown shown' : List (String × Entry)} {h : Heading}
  {row : Row}

theorem Reads.append (hfirst : Reads entries columns shown) (hrest : Reads entries columns' shown') :
    Reads entries (columns ++ columns') (shown ++ shown') :=
  List.rel_append hfirst hrest

/-- No place lies behind the end. -/
theorem Reads.lt_length (hreads : Reads entries columns shown) :
    ∀ column ∈ columns, column.1 < entries.length := by
  induction hreads with
  | nil => exact nofun
  | cons hcell _ ih =>
    intro column hcolumn
    rcases List.mem_cons.1 hcolumn with rfl | hcolumn
    · exact (List.getElem?_eq_some_iff.1 hcell.2).1
    · exact ih column hcolumn

/-- The headers and the entries of an answer are the cells. -/
theorem Reads.zip_apply {r : JointRow} (hreads : Reads r.entries columns shown) :
    (headers ⟨columns⟩).zip (apply ⟨columns⟩ r) = shown := by
  induction hreads with
  | nil => rfl
  | @cons column cell columns cells hcell _ ih =>
    have hentry : r.entryAt column.1 = cell.2 := by rw [JointRow.entryAt, hcell.2, Option.getD_some]
    calc (headers ⟨column :: columns⟩).zip (apply ⟨column :: columns⟩ r)
        = (column.2, r.entryAt column.1) :: (headers ⟨columns⟩).zip (apply ⟨columns⟩ r) := rfl
      _ = cell :: cells := by rw [ih, hcell.1, hentry]

/-- The columns of a whole table read its row. -/
theorem reads_wholeTable (hlies : h.Lies row offset entries) (joined : Bool) {s : Selector}
    (hs : s.column = none) :
    Reads entries (wholeTable joined h offset) (s.cells joined h row) := by
  have hlength : h.schema.columns.length = row.entries.length := hlies.width.symm
  refine List.forall₂_iff_get.2 ⟨by simp [wholeTable, Selector.cells, hs, hlength], ?_⟩
  intro i hi hi'
  have hcolumn : i < h.schema.columns.length := by simpa [wholeTable] using hi
  have hentry : i < row.entries.length := hlength ▸ hcolumn
  have hplace := hlies.entries i hcolumn
  rw [List.getElem?_eq_getElem hentry] at hplace
  simp [wholeTable, Selector.cells, hs, hplace]

/-- Where names do not repeat, one cell of a row belongs to a name. -/
theorem filter_zip_name {columns : List Column} {cells : List Entry}
    (hnames : (columns.map Column.name).Nodup) {i : Nat} {c : Column} {e : Entry}
    (hc : columns[i]? = some c) (he : cells[i]? = some e) :
    (columns.zip cells).filter (fun b => b.1.name = c.name) = [(c, e)] := by
  induction columns generalizing cells i with
  | nil => simp at hc
  | cons first columns ih =>
    cases cells with
    | nil => simp at he
    | cons value cells =>
      obtain ⟨hnew, hnames⟩ := List.nodup_cons.1 hnames
      cases i with
      | zero =>
        obtain rfl : first = c := by simpa using hc
        obtain rfl : value = e := by simpa using he
        have hlater : (columns.zip cells).filter (fun b => b.1.name = first.name) = [] := by
          refine List.filter_eq_nil_iff.2 fun b hb hname => hnew ?_
          rw [← of_decide_eq_true hname]
          exact List.mem_map_of_mem (List.of_mem_zip hb).1
        rw [List.zip_cons_cons, List.filter_cons_of_pos (by simp), hlater]
      | succ i =>
        have hother : first.name ≠ c.name := by
          intro hname
          rw [hname] at hnew
          exact hnew (List.mem_map_of_mem (List.mem_of_getElem? hc))
        rw [List.zip_cons_cons, List.filter_cons_of_neg (by simpa using hother)]
        exact ih hnames hc he

/-- The column of a name, if a table has it, reads the cell of that name. -/
theorem reads_named (hnames : h.schema.names.Nodup) (hlies : h.Lies row offset entries)
    (joined : Bool) {s : Selector} {name : String} (hs : s.column = some name) :
    Reads entries (((h.schema.indexOf? name).map fun i => offset + i).toList.map (·, name))
      (s.cells joined h row) := by
  rw [s.cells_of_column hs]
  cases hindex : h.schema.indexOf? name with
  | none =>
    have hnone : (h.schema.columns.zip row.entries).filter (fun b => b.1.name = name) = [] := by
      refine List.filter_eq_nil_iff.2 fun b hb => ?_
      exact Bool.eq_false_iff.1 (List.findIdx?_eq_none_iff.1 hindex b.1 (List.of_mem_zip hb).1)
    simp [hnone, Reads]
  | some i =>
    obtain ⟨hi, hname, -⟩ := List.findIdx?_eq_some_iff_getElem.1 hindex
    have hentry : i < row.entries.length := hlies.width.symm ▸ hi
    obtain rfl : h.schema.columns[i].name = name := of_decide_eq_true hname
    have hplace := hlies.entries i hi
    rw [List.getElem?_eq_getElem hentry] at hplace
    rw [filter_zip_name hnames (List.getElem?_eq_getElem hi) (List.getElem?_eq_getElem hentry)]
    exact .cons ⟨rfl, hplace⟩ .nil

/-- A walk over the tables that reads the row of each one reads the rows one after the other. -/
theorem reads_walk (walk : Nat → List Heading → List (Nat × String))
    (step : Nat → Heading → List (Nat × String)) (cells : Heading → Row → List (String × Entry))
    (hnil : ∀ offset, walk offset [] = [])
    (hcons : ∀ offset h rest,
      walk offset (h :: rest) = step offset h ++ walk (offset + h.width) rest)
    (hrows : Aligned headings rows)
    (hstep : ∀ h ∈ headings, ∀ row offset, h.Lies row offset entries →
      Reads entries (step offset h) (cells h row))
    (hdrop : entries.drop offset = rows.flatMap Row.entries) :
    Reads entries (walk offset headings)
      ((headings.zip rows).flatMap fun b => cells b.1 b.2) := by
  induction hrows generalizing offset with
  | nil =>
    rw [hnil]
    exact .nil
  | @cons h row headings rows hwidth _ ih =>
    obtain ⟨hlies, hrest⟩ := Heading.lies_of_drop hwidth hdrop
    rw [hcons]
    exact (hstep h (by simp) row offset hlies).append
      (ih (fun h hh => hstep h (by simp [hh])) hrest)

/-- The first table of a name is found with its row. -/
theorem lies_of_tableAt? {name : String} {place : Nat} (hrows : Aligned headings rows)
    (hdrop : entries.drop offset = rows.flatMap Row.entries)
    (hfound : tableAt? name offset headings = some (h, place)) :
    h ∈ headings ∧ ∃ row, (headings.zip rows).find? (fun b => b.1.table = name) = some (h, row) ∧
      h.Lies row place entries := by
  induction hrows generalizing offset with
  | nil => simp [tableAt?] at hfound
  | @cons first row headings rows hwidth _ ih =>
    obtain ⟨hlies, hrest⟩ := Heading.lies_of_drop hwidth hdrop
    unfold tableAt? at hfound
    split at hfound
    · rename_i hname
      obtain ⟨rfl, rfl⟩ := by simpa using hfound
      exact ⟨by simp, row, by simp [hname], hlies⟩
    · rename_i hname
      obtain ⟨hmem, found, hfind, hlies⟩ := ih hrest hfound
      exact ⟨by simp [hmem], found, by simpa [hname] using hfind, hlies⟩

/-- A selector reads the cells it shows, wherever it is accepted. -/
theorem reads_select (hnames : ∀ h ∈ headings, h.schema.names.Nodup) (hrows : Aligned headings rows)
    {s : Selector} (hselect : select headings s = .ok columns) :
    Reads (rows.flatMap Row.entries) columns (s.shows (headings.zip rows)) := by
  have hlength : (headings.zip rows).length = headings.length := by
    rw [List.length_zip, ← List.Forall₂.length_eq hrows, Nat.min_self]
  have hdrop : (rows.flatMap Row.entries).drop 0 = rows.flatMap Row.entries := rfl
  obtain ⟨table, column⟩ := s
  cases table with
  | none =>
    cases column with
    | none =>
      cases hselect
      rw [← hlength]
      exact reads_walk _ (fun offset h => wholeTable _ h offset) _ (fun _ => rfl)
        (fun _ _ _ => rfl) hrows (fun _ _ _ _ hlies => reads_wholeTable hlies _ rfl) hdrop
    | some name =>
      have hall := reads_walk
        (fun offset headings => (placesNamed name offset headings).map (·, name))
        (fun offset h => ((h.schema.indexOf? name).map fun i => offset + i).toList.map (·, name))
        (Selector.cells ⟨none, some name⟩ (decide (1 < headings.length)))
        (fun _ => rfl) (fun _ _ _ => List.map_append) hrows
        (fun h hh _ _ hlies => reads_named (hnames h hh) hlies _ rfl) hdrop
      simp only [select] at hselect
      split at hselect
      · cases hselect
      · rename_i place hplace
        cases hselect
        rw [hplace, ← hlength] at hall
        exact hall
      · cases hselect
  | some table =>
    cases column with
    | none =>
      simp only [select] at hselect
      split at hselect
      · rename_i h place hfound
        cases hselect
        obtain ⟨-, row, hfind, hlies⟩ := lies_of_tableAt? hrows hdrop hfound
        rw [Selector.shows_of_find? hfind, hlength]
        exact reads_wholeTable hlies _ rfl
      · cases hselect
    | some name =>
      simp only [select] at hselect
      split at hselect
      · rename_i place hplace
        cases hselect
        obtain ⟨⟨h, first⟩, hfound, hindex⟩ := Option.bind_eq_some_iff.1 hplace
        obtain ⟨hmem, row, hfind, hlies⟩ := lies_of_tableAt? hrows hdrop hfound
        rw [Selector.shows_of_find? hfind, hlength]
        have hreads := reads_named (hnames h hmem) hlies (decide (1 < headings.length))
          (s := ⟨some table, some name⟩) rfl
        rw [hindex] at hreads
        exact hreads
      · cases hselect

/-- So does a list of selectors. -/
theorem reads_selectors (hnames : ∀ h ∈ headings, h.schema.names.Nodup)
    (hrows : Aligned headings rows) {selectors : List Selector} {parts : List (List (Nat × String))}
    (hselect : selectors.mapM (select headings) = .ok parts) :
    Reads (rows.flatMap Row.entries) parts.flatten
      (selectors.flatMap fun s => s.shows (headings.zip rows)) := by
  induction selectors generalizing parts with
  | nil =>
    cases hselect
    exact .nil
  | cons s selectors ih =>
    rw [List.mapM_cons] at hselect
    obtain ⟨columns, hs, hselect⟩ := Result.bind_eq_ok.1 hselect
    obtain ⟨rest, hrest, hparts⟩ := Result.bind_eq_ok.1 hselect
    obtain rfl : columns :: rest = parts := by simpa [pure, Except.pure] using hparts
    exact (reads_select hnames hrows hs).append (ih hrest)

/-- What a list of selectors selects is read from the rows, wherever the list is accepted. -/
theorem reads_ofSelectors (hnames : ∀ h ∈ headings, h.schema.names.Nodup)
    (hrows : Aligned headings rows) {selectors : List Selector} {p : Projection}
    (hp : ofSelectors headings selectors = .ok p) :
    Reads (rows.flatMap Row.entries) p.columns
      ((if selectors.isEmpty then [{}] else selectors).flatMap fun s =>
        s.shows (headings.zip rows)) := by
  obtain ⟨parts, hselect, hparts⟩ := Result.bind_eq_ok.1 hp
  obtain rfl : (⟨parts.flatten⟩ : Projection) = p := by simpa [pure, Except.pure] using hparts
  exact reads_selectors hnames hrows hselect

/-- A row of each table has the cell of every column that a name finds, and a predicate that uses the
name gets that cell. -/
theorem exists_cell_of_resolve (hrows : Aligned headings rows) {name : String} {ref : ColumnRef}
    (href : Heading.resolve headings name = .ok ref) :
    ∃ h c row e, Heading.Locates headings ref h c ∧
      (nameParts name = [c.name] ∨ nameParts name = [h.table, c.name]) ∧
      rows[ref.table]? = some row ∧ row.entries[ref.column]? = some e ∧
      (JointRow.ofRows headings rows).entries[ref.offset]? = some e ∧
      (JointRow.ofRows headings rows).lookup name = .ok (e, ref.type) := by
  obtain ⟨h, c, hlocates, hparts⟩ := Heading.locates_named_of_resolve href
  obtain ⟨htable, hhead⟩ := List.getElem?_eq_some_iff.1 hlocates.table
  have hlt : ref.table < rows.length := List.Forall₂.length_eq hrows ▸ htable
  have hrow : rows[ref.table]? = some rows[ref.table] := List.getElem?_eq_getElem hlt
  have hwidth : rows[ref.table].entries.length = h.width := by
    have hget := (List.forall₂_iff_get.1 hrows).2 ref.table htable hlt
    simpa [hhead] using hget
  have hcolumn : ref.column < rows[ref.table].entries.length := by
    rw [hwidth]
    exact (List.getElem?_eq_some_iff.1 hlocates.column).1
  have he : rows[ref.table].entries[ref.column]? = some rows[ref.table].entries[ref.column] :=
    List.getElem?_eq_getElem hcolumn
  have hplace : (JointRow.ofRows headings rows).entries[ref.offset]? =
      some rows[ref.table].entries[ref.column] := by
    rw [JointRow.ofRows, hlocates.offset, hrows.getElem?_flatMap hrow hcolumn, he]
  refine ⟨h, c, _, _, hlocates, hparts, hrow, he, hplace, Result.bind_eq_ok.2 ⟨ref, href, ?_⟩⟩
  rw [JointRow.entryAt, hplace]
  rfl

/-- Selectors and names in predicates find the same columns and fail alike.  What they find is in the
rows of the tables side by side, and there it is the cell of the column and the table that are named.
An answer has one cell for each header, and is made of the cells that its selectors show of the tables,
each under the name of its own column. -/
theorem selectors_agree_with_names
    (hschemas : ∀ h ∈ headings, ∃ columns, Schema.ofColumns columns = .ok h.schema)
    (hrows : Aligned headings rows) :
    (∀ c : String, '.' ∉ c.toList →
      select headings ⟨none, some c⟩ =
        (Heading.resolve headings c).map fun ref => [(ref.offset, c)]) ∧
    (∀ t c : String, '.' ∉ t.toList → '.' ∉ c.toList →
      select headings ⟨some t, some c⟩ =
        (Heading.resolve headings (t ++ "." ++ c)).map fun ref => [(ref.offset, c)]) ∧
    (∀ name ref, Heading.resolve headings name = .ok ref →
      ∃ h c row e, Heading.Locates headings ref h c ∧
        (nameParts name = [c.name] ∨ nameParts name = [h.table, c.name]) ∧
        rows[ref.table]? = some row ∧ row.entries[ref.column]? = some e ∧
        (JointRow.ofRows headings rows).entries[ref.offset]? = some e ∧
        (JointRow.ofRows headings rows).lookup name = .ok (e, ref.type)) ∧
    ∀ selectors p, ofSelectors headings selectors = .ok p →
      (∀ column ∈ p.columns, column.1 < (JointRow.ofRows headings rows).entries.length) ∧
        (p.apply (.ofRows headings rows)).length = p.headers.length ∧
        p.headers.zip (p.apply (.ofRows headings rows)) =
          (if selectors.isEmpty then [{}] else selectors).flatMap fun s =>
            s.shows (headings.zip rows) := by
  have hnames (h : Heading) (hh : h ∈ headings) : h.schema.names.Nodup := by
    obtain ⟨columns, hcolumns⟩ := hschemas h hh
    exact Schema.nodup_names_of_ofColumns hcolumns
  refine ⟨fun c hc => select_bare hc, fun t c ht hc => select_qualified ht hc,
    fun name ref href => exists_cell_of_resolve hrows href, fun selectors p hp => ?_⟩
  have hreads := reads_ofSelectors hnames hrows hp
  exact ⟨hreads.lt_length, by simp [apply, headers],
    hreads.zip_apply (r := .ofRows headings rows)⟩

end Projection

/-- Owners, pets, and the owners once more. -/
def kennel : List Heading :=
  let owners := [⟨"id", .int, true, true, none⟩, ⟨"name", .text, false, false, none⟩]
  let pets := [⟨"tag", .int, true, true, none⟩, ⟨"name", .text, false, false, none⟩,
    ⟨"owner", .int, false, false, none⟩]
  [⟨"owners", ⟨owners, 0⟩⟩, ⟨"pets", ⟨pets, 0⟩⟩, ⟨"owners", ⟨owners, 0⟩⟩]

/-- A row of each. -/
def kennelRows : List Row :=
  [⟨[.int 1, .text "Ada"], 1⟩, ⟨[.int 7, .text "Rex", .int 1], 1⟩, ⟨[.int 2, .text "Bo"], 1⟩]

/-- The name of the pet, all of the first owner, and the column that only pets have. -/
def kennelSelectors : List Selector :=
  [⟨some "pets", some "name"⟩, ⟨some "owners", none⟩, ⟨none, some "owner"⟩]

theorem selectors_agree_with_names_kennel :
    (∀ h ∈ kennel, ∃ columns, Schema.ofColumns columns = .ok h.schema) ∧
      Aligned kennel kennelRows ∧
      Projection.select kennel ⟨none, some "name"⟩ = .error (.columnAmbiguous "name") ∧
      Heading.resolve kennel "name" = .error (.columnAmbiguous "name") ∧
      ∃ p, Projection.ofSelectors kennel kennelSelectors = .ok p ∧
        p.headers.zip (p.apply (.ofRows kennel kennelRows)) =
          [("name", .text "Rex"), ("owners.id", .int 1), ("owners.name", .text "Ada"),
            ("owner", .int 1)] := by
  have hschemas : ∀ h ∈ kennel, ∃ columns, Schema.ofColumns columns = .ok h.schema := by
    intro h hh
    refine ⟨h.schema.columns, ?_⟩
    revert h
    decide
  have hrows : Aligned kennel kennelRows := by
    simp [Aligned, kennel, kennelRows, Heading.width, Schema.width]
  obtain ⟨hbare, -, -, hshown⟩ := Projection.selectors_agree_with_names hschemas hrows
  have hname : Heading.resolve kennel "name" = .error (.columnAmbiguous "name") := by
    decide +kernel
  have hselect := hbare "name" (by decide)
  rw [hname] at hselect
  obtain ⟨p, hp⟩ : ∃ p, Projection.ofSelectors kennel kennelSelectors = .ok p := ⟨_, rfl⟩
  refine ⟨hschemas, hrows, hselect, hname, p, hp, ?_⟩
  rw [(hshown kennelSelectors p hp).2.2]
  decide +kernel

end PageDb
