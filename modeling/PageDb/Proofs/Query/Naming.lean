import PageDb.Query.Predicate
import Mathlib.Algebra.Ring.Nat
import Mathlib.Data.List.Forall2

/-!
Finding columns by name.

However a name is spelled, the column it finds belongs to one of the tables, and its offset is the
place of its entries in the rows of all tables side by side.
-/

namespace PageDb

/-! ## The parts of a name -/

theorem splitAtDots_ne_nil (cs : List Char) : splitAtDots cs ≠ [] := by
  cases cs with
  | nil => exact nofun
  | cons c rest =>
    unfold splitAtDots
    split
    · exact nofun
    · split <;> exact nofun

/-- A text without a dot is its only part. -/
theorem splitAtDots_of_notMem {cs : List Char} (h : '.' ∉ cs) : splitAtDots cs = [cs] := by
  induction cs with
  | nil => rfl
  | cons c cs ih =>
    obtain ⟨hc, hcs⟩ := List.ne_and_not_mem_of_not_mem_cons h
    simp [splitAtDots, ih hcs, Ne.symm hc]

/-- What stands before the first dot is the first part. -/
theorem splitAtDots_append {cs : List Char} (h : '.' ∉ cs) (rest : List Char) :
    splitAtDots (cs ++ '.' :: rest) = cs :: splitAtDots rest := by
  obtain ⟨part, parts, hparts⟩ := List.exists_cons_of_ne_nil (splitAtDots_ne_nil rest)
  induction cs with
  | nil => simp [splitAtDots, hparts]
  | cons c cs ih =>
    obtain ⟨hc, hcs⟩ := List.ne_and_not_mem_of_not_mem_cons h
    simp [splitAtDots, ih hcs, Ne.symm hc]

/-- The only part of a text is the text. -/
theorem eq_of_splitAtDots_eq_singleton {cs part : List Char} (h : splitAtDots cs = [part]) :
    part = cs := by
  have hdots : '.' ∉ cs := by
    intro hmem
    obtain ⟨first, rest, rfl, hfirst⟩ := List.eq_append_cons_of_mem hmem
    rw [splitAtDots_append hfirst] at h
    exact splitAtDots_ne_nil _ (List.cons.inj h).2
  rw [splitAtDots_of_notMem hdots] at h
  exact (List.cons.inj h).1.symm

theorem nameParts_of_singleton {name part : String} (h : nameParts name = [part]) :
    nameParts name = [name] := by
  obtain ⟨cs, hcs⟩ := List.map_eq_singleton_iff.1 h
  rw [nameParts, hcs.1, eq_of_splitAtDots_eq_singleton hcs.1, List.map_singleton,
    String.ofList_toList]

theorem nameParts_bare {column : String} (h : '.' ∉ column.toList) :
    nameParts column = [column] := by
  simp [nameParts, splitAtDots_of_notMem h]

theorem nameParts_qualified {table column : String} (ht : '.' ∉ table.toList)
    (hc : '.' ∉ column.toList) : nameParts (table ++ "." ++ column) = [table, column] := by
  have hlist : (table ++ "." ++ column).toList = table.toList ++ '.' :: column.toList := by
    simp
  simp [nameParts, hlist, splitAtDots_append ht, splitAtDots_of_notMem hc]

/-! ## Where a column is -/

namespace Heading

/-- The number of columns in front of those of a table. -/
def before (headings : List Heading) (table : Nat) : Nat := ((headings.take table).map width).sum

@[simp] theorem before_zero (headings : List Heading) : before headings 0 = 0 := by
  simp [before]

@[simp] theorem before_cons (h : Heading) (headings : List Heading) (table : Nat) :
    before (h :: headings) (table + 1) = h.width + before headings table := by
  simp [before]

/-- A column that was found is one of the tables, and lies where its offset says. -/
structure Locates (headings : List Heading) (ref : ColumnRef) (h : Heading) (c : Column) : Prop where
  table : headings[ref.table]? = some h
  column : h.schema.columns[ref.column]? = some c
  type : ref.type = c.type
  offset : ref.offset = before headings ref.table + ref.column

variable {headings : List Heading} {name : String} {ref : ColumnRef} {table offset : Nat}

theorem column?_eq_some {h : Heading} (hfound : h.column? table offset name = some ref) :
    ref.table = table ∧ ref.offset = offset + ref.column ∧
      ∃ c, h.schema.columns[ref.column]? = some c ∧ ref.type = c.type ∧ c.name = name := by
  simp only [column?, Option.bind_eq_bind, Option.bind_eq_some_iff, Option.pure_def,
    Option.some.injEq] at hfound
  obtain ⟨i, hindex, c, hc, rfl⟩ := hfound
  obtain ⟨_, hname, -⟩ := List.findIdx?_eq_some_iff_getElem.1 hindex
  rw [(List.getElem?_eq_some_iff.1 hc).2] at hname
  exact ⟨rfl, rfl, c, hc, rfl, of_decide_eq_true hname⟩

theorem mem_columnsNamed (hmem : ref ∈ columnsNamed name table offset headings) :
    ∃ (k : Nat) (h : Heading), headings[k]? = some h ∧
      h.column? (table + k) (offset + before headings k) name = some ref := by
  induction headings generalizing table offset with
  | nil => simp [columnsNamed] at hmem
  | cons h rest ih =>
    rcases List.mem_append.1 hmem with hfirst | hrest
    · exact ⟨0, h, rfl, by simpa using hfirst⟩
    · obtain ⟨k, h', hk, hfound⟩ := ih hrest
      refine ⟨k + 1, h', hk, ?_⟩
      rw [before_cons, Nat.add_comm k 1, ← Nat.add_assoc, ← Nat.add_assoc]
      exact hfound

theorem tableNamed?_eq_some {h : Heading} {i first : Nat}
    (hfound : tableNamed? name table offset headings = some (h, i, first)) :
    ∃ k, headings[k]? = some h ∧ h.table = name ∧ i = table + k ∧
      first = offset + before headings k := by
  induction headings generalizing table offset with
  | nil => simp [tableNamed?] at hfound
  | cons h' rest ih =>
    unfold tableNamed? at hfound
    split at hfound
    · rename_i hname
      obtain ⟨rfl, rfl, rfl⟩ := by simpa using hfound
      exact ⟨0, rfl, hname, rfl, by simp⟩
    · obtain ⟨k, hk, hname, rfl, rfl⟩ := ih hfound
      exact ⟨k + 1, hk, hname, by omega, by rw [before_cons]; omega⟩

/-- A column of the table at a place is located by what its name finds there. -/
theorem locates_of_column? {h : Heading} {k : Nat} (hk : headings[k]? = some h)
    (hfound : h.column? k (before headings k) name = some ref) :
    ∃ c, Locates headings ref h c ∧ c.name = name := by
  obtain ⟨rfl, hoffset, c, hc, htype, hname⟩ := column?_eq_some hfound
  exact ⟨c, ⟨hk, hc, htype, hoffset⟩, hname⟩

/-- Every name that is resolved locates a column that it names, alone or behind the table. -/
theorem locates_named_of_resolve (hfound : resolve headings name = .ok ref) :
    ∃ h c, Locates headings ref h c ∧
      (nameParts name = [c.name] ∨ nameParts name = [h.table, c.name]) := by
  unfold resolve at hfound
  split at hfound
  · rename_i column hparts
    unfold resolveBare at hfound
    split at hfound
    · cases hfound
    · rename_i hnamed
      cases hfound
      have hmem : ref ∈ columnsNamed name 0 0 headings := by simp [hnamed]
      obtain ⟨k, h, hk, hcolumn⟩ := mem_columnsNamed hmem
      rw [Nat.zero_add, Nat.zero_add] at hcolumn
      obtain ⟨c, hlocates, rfl⟩ := locates_of_column? hk hcolumn
      exact ⟨h, c, hlocates, .inl (nameParts_of_singleton hparts)⟩
    · cases hfound
  · rename_i table column hparts
    split at hfound
    · rename_i hqualified
      cases hfound
      simp only [findQualified?, Option.bind_eq_bind, Option.bind_eq_some_iff] at hqualified
      obtain ⟨⟨h, i, first⟩, htable, hcolumn⟩ := hqualified
      obtain ⟨k, hk, rfl, rfl, rfl⟩ := tableNamed?_eq_some htable
      rw [Nat.zero_add, Nat.zero_add] at hcolumn
      obtain ⟨c, hlocates, rfl⟩ := locates_of_column? hk hcolumn
      exact ⟨h, c, hlocates, .inr hparts⟩
    · cases hfound
  · cases hfound

/-- Every name that is resolved locates a column. -/
theorem locates_of_resolve (hfound : resolve headings name = .ok ref) :
    ∃ h c, Locates headings ref h c := by
  obtain ⟨h, c, hlocates, -⟩ := locates_named_of_resolve hfound
  exact ⟨h, c, hlocates⟩

end Heading

/-- Rows of the tables of a query, one each, with as many entries as the tables have columns. -/
def Aligned (headings : List Heading) (rows : List Row) : Prop :=
  List.Forall₂ (fun h row => row.entries.length = h.width) headings rows

/-- The entries of a row lie behind those of the tables in front of its own. -/
theorem Aligned.getElem?_flatMap {headings : List Heading} {rows : List Row}
    (h : Aligned headings rows) {k i : Nat} {row : Row} (hrow : rows[k]? = some row)
    (hi : i < row.entries.length) :
    (rows.flatMap Row.entries)[Heading.before headings k + i]? = row.entries[i]? := by
  induction h generalizing k with
  | nil => simp at hrow
  | @cons heading first headings rows hfirst _ ih =>
    rw [List.flatMap_cons]
    cases k with
    | zero =>
      obtain rfl : first = row := by simpa using hrow
      rw [Heading.before_zero, Nat.zero_add, List.getElem?_append_left hi]
    | succ k =>
      rw [Heading.before_cons, List.getElem?_append_right (by omega),
        show heading.width + Heading.before headings k + i - first.entries.length =
          Heading.before headings k + i by omega]
      exact ih hrow

/-- The entry at the offset of a column is that of its table's row. -/
theorem Aligned.entryAt {headings : List Heading} {rows : List Row} (h : Aligned headings rows)
    {ref : ColumnRef} {heading : Heading} {c : Column}
    (hlocates : Heading.Locates headings ref heading c) {row : Row}
    (hrow : rows[ref.table]? = some row) :
    (JointRow.ofRows headings rows).entryAt ref.offset =
      (row.entries[ref.column]?).getD .null := by
  have hwidth : row.entries.length = heading.width := by
    have hboth := (List.forall₂_iff_get.1 h).2
    obtain ⟨hlt, hget⟩ := List.getElem?_eq_some_iff.1 hrow
    obtain ⟨hlt', hget'⟩ := List.getElem?_eq_some_iff.1 hlocates.table
    have := hboth ref.table hlt' hlt
    simpa [hget, hget'] using this
  have hcolumn : ref.column < row.entries.length := by
    rw [hwidth]
    exact (List.getElem?_eq_some_iff.1 hlocates.column).1
  rw [JointRow.entryAt, JointRow.ofRows, hlocates.offset, h.getElem?_flatMap hrow hcolumn]

end PageDb
