import PageDb.Proofs.CrossOrder
import PageDb.Proofs.Query.Choices
import PageDb.Proofs.Query.Naming

/-!
The entries that a comparison of two columns reads, and what access by key makes of them.

`Join.Cell` is the entry of a column in a choice of rows.  A key finds a row only if a predicate
would find the two entries equal.
-/

namespace PageDb

namespace Predicate

/-- The equality of two columns. -/
def equates (l r : String) : Predicate := .compare ⟨.column l, .eq, .column r⟩

/-- The predicate with a selection beside it. -/
def restrict (p : Predicate) : Option Predicate → Predicate
  | none => p
  | some q => .and p q

/-- A restricted predicate accepts what both parts accept. -/
theorem accepts_restrict {p : Predicate} {q : Option Predicate} {row : JointRow} {b : Bool}
    (h : accepts (some (p.restrict q)) row = .ok b) :
    ∃ b₁ b₂, accepts (some p) row = .ok b₁ ∧ accepts q row = .ok b₂ ∧ b = (b₁ && b₂) := by
  cases q with
  | none => exact ⟨b, true, h, rfl, (Bool.and_true b).symm⟩
  | some q =>
    obtain ⟨truth, htruth, hb⟩ := Result.bind_eq_ok.1 h
    obtain ⟨x, hx, htruth⟩ := Result.bind_eq_ok.1 htruth
    obtain ⟨y, hy, htruth⟩ := Result.bind_eq_ok.1 htruth
    cases htruth
    cases hb
    refine ⟨x.isTrue, y.isTrue, by simp [accepts, hx], by simp [accepts, hy], ?_⟩
    cases x <;> cases y <;> rfl

end Predicate

namespace Join

/-- The entry of a column in a choice of rows. -/
structure Cell (tables : List Table) (rows : Table → SortedMap Entry Row) (made : List Row)
    (ref : ColumnRef) (t : Table) (row : Row) (e : Entry) : Prop where
  table : tables[ref.table]? = some t
  chosen : made[ref.table]? = some row
  mem : row ∈ (rows t).values
  entry : row.entries[ref.column]? = some e
  offset : (JointRow.ofRows (tables.map Table.heading) made).entryAt ref.offset = e
  column : ∃ c, t.schema.columns[ref.column]? = some c ∧ ref.type = c.type ∧ c.Admits e

variable {tables : List Table} {s : Tablespace} {made : List Row} {ref key other : ColumnRef}
  {t u : Table} {row row' : Row} {a b e : Entry}

/-- The row of a choice at a place belongs to the table at that place. -/
theorem exists_table (hmade : made ∈ choices tables fun t => t.contents s) {k : Nat}
    (ht : tables[k]? = some t) : ∃ row, made[k]? = some row ∧ row ∈ (t.contents s).values := by
  obtain ⟨hlength, hmem⟩ := forall₂_iff_getElem?.1 (mem_choices_iff.1 hmade)
  have hk : k < made.length := by
    rw [hlength]
    exact (List.getElem?_eq_some_iff.1 ht).1
  exact ⟨made[k], List.getElem?_eq_getElem hk, hmem k _ t (List.getElem?_eq_getElem hk) ht⟩

/-- The rows of a choice have as many entries as their tables have columns. -/
theorem aligned_of_mem_choices (h : Tablespace.Orderly tables s)
    (hmade : made ∈ choices tables fun t => t.contents s) :
    Aligned (tables.map Table.heading) made := by
  obtain ⟨hlength, hmem⟩ := forall₂_iff_getElem?.1 (mem_choices_iff.1 hmade)
  refine List.forall₂_map_left_iff.2 (forall₂_iff_getElem?.2 ⟨hlength.symm, fun k t row ht hrow => ?_⟩)
  exact (h.fits (List.mem_of_getElem? ht) (hmem k row t hrow ht)).length_eq.symm

/-- Every name that is resolved has a cell in every choice. -/
theorem exists_cell (h : Tablespace.Orderly tables s)
    (hmade : made ∈ choices tables fun t => t.contents s) {name : String}
    (href : Heading.resolve (tables.map Table.heading) name = .ok ref) :
    ∃ t row e, Cell tables (fun t => t.contents s) made ref t row e := by
  obtain ⟨heading, c, hlocates⟩ := Heading.locates_of_resolve href
  obtain ⟨t, ht, rfl⟩ : ∃ t, tables[ref.table]? = some t ∧ t.heading = heading := by
    simpa using hlocates.table
  obtain ⟨row, hrow, hmem⟩ := exists_table hmade ht
  obtain ⟨hlength, hadmits⟩ := forall₂_iff_getElem?.1 (h.fits (List.mem_of_getElem? ht) hmem)
  have hcolumn : ref.column < row.entries.length := by
    rw [← hlength]
    exact (List.getElem?_eq_some_iff.1 hlocates.column).1
  have hentry := List.getElem?_eq_getElem hcolumn
  refine ⟨t, row, row.entries[ref.column], ht, hrow, hmem, hentry, ?_, ?_⟩
  · rw [(aligned_of_mem_choices h hmade).entryAt hlocates hrow, hentry, Option.getD_some]
  · exact ⟨c, hlocates.column, hlocates.type, hadmits _ c _ hlocates.column hentry⟩

namespace Cell

variable {rows : Table → SortedMap Entry Row}

theorem fits (h : Cell tables rows made ref t row e) : e.fits ref.type := by
  obtain ⟨c, -, htype, hadmits⟩ := h.column
  exact htype ▸ hadmits.fits

/-- What a predicate reads under a name is the entry of its cell. -/
theorem value (h : Cell tables rows made ref t row e) {name : String}
    (href : Heading.resolve (tables.map Table.heading) name = .ok ref) :
    (Operand.column name).value (some (.ofRows (tables.map Table.heading) made)) =
      .ok (Scalar.ofEntry e ref.type) := by
  have hheadings : (JointRow.ofRows (tables.map Table.heading) made).headings =
      tables.map Table.heading := rfl
  simp only [Operand.value, JointRow.lookup]
  rw [hheadings, href, Result.ok_bind, h.offset]
  rfl

/-- The entry of a primary column is the key of its row, and no null. -/
theorem primary (h : Cell tables rows made ref t row e) (hproper : t.schema.Proper)
    (hprimary : isPrimary tables ref = true) :
    e = row.keyAt t.primaryIndex ∧ ref.type = t.keyType ∧ e ≠ .null := by
  have hcolumn : ref.column = t.primaryIndex := by simpa [isPrimary, h.table] using hprimary
  obtain ⟨c, hc, htype, hadmits⟩ := h.column
  obtain ⟨c', hc', hnotNull⟩ := hproper
  obtain rfl : c = c' := by
    rw [hcolumn, Table.primaryIndex, hc'] at hc
    exact (Option.some.inj hc).symm
  refine ⟨?_, ?_, hadmits.notNull hnotNull⟩
  · rw [Row.keyAt, ← hcolumn, h.entry, Option.getD_some]
  · rw [htype, Table.keyType, Schema.primaryColumn, hc', Option.getD_some]

end Cell

/-! ## Access by key -/

/-- A row that an entry finds has a key that is the same. -/
theorem meeting_of_get? (h : Tablespace.Orderly tables s) (ht : t ∈ tables) {type : ColumnType}
    (ha : a.fits type) (hget : (t.contents s).get? a = some row) :
    a.meetingPlace type t.keyType = (row.keyAt t.primaryIndex).meetingPlace type t.keyType := by
  have hascending : (t.contents s).Ascending (Entry.fits t.keyType) := h.holds.ascending ht
  obtain ⟨b, hb, rfl⟩ := Option.map_eq_some_iff.1 hget
  obtain ⟨hmem, heq⟩ := SortedMap.mem_of_find? hb
  have hfits := hascending.holds b hmem
  have hbget : (t.contents s).get? b.1 = some b.2 :=
    SortedMap.get?_of_mem (Entry.orderedOn_fits _) hascending hmem
  obtain ⟨hkeyed, hsame⟩ := h.holds.keyed ht hfits hbget
  rw [Entry.compare_eq_meeting ha hfits, Entry.Place.order_eq_iff] at heq
  rw [heq, Entry.meetingPlace_comm, Entry.meetingPlace_comm type]
  exact (Entry.meeting_congr type hkeyed.fits hfits (Entry.same_iff.1 hsame)).symm

/-- What an entry finds, where values stay apart. -/
theorem get?_of_meeting (h : Tablespace.Orderly tables s) (ht : t ∈ tables) {type : ColumnType}
    (ha : a.fits type) (hrow : row ∈ (t.contents s).values) (hstrict : Entry.Strict t.keyType type)
    (hmeet : a.meetingPlace type t.keyType = (row.keyAt t.primaryIndex).meetingPlace type t.keyType) :
    (t.contents s).get? a = some row := by
  have hascending : (t.contents s).Ascending (Entry.fits t.keyType) := h.holds.ascending ht
  obtain ⟨hkeyed, hown⟩ := h.holds.found ht hrow
  rw [← hown, SortedMap.get?, SortedMap.get?]
  refine congrArg (Option.map Prod.snd) (SortedMap.find?_congr fun c hc => ?_)
  have hc := hascending.holds c hc
  rw [Entry.compare_eq_meeting ha hc, hmeet, Entry.meetingPlace_comm type, Entry.meetingPlace_comm type]
  exact Entry.meeting_of_strict hstrict hkeyed.fits hc

/-- The answer of the equality of two columns. -/
theorem accepts_equates {rows : Table → SortedMap Entry Row} {l r : String} {left right : ColumnRef}
    (hl : Heading.resolve (tables.map Table.heading) l = .ok left)
    (hr : Heading.resolve (tables.map Table.heading) r = .ok right)
    (hleft : Cell tables rows made left t row a) (hright : Cell tables rows made right u row' b)
    (hkind : left.type.isNumeric = right.type.isNumeric) :
    Predicate.accepts (some (.equates l r)) (.ofRows (tables.map Table.heading) made) =
      .ok (a.equates b) := by
  have hcompare := Scalar.compare_ofEntry hleft.fits hright.fits hkind
  simp only [Predicate.accepts, Predicate.equates, Predicate.evaluate, Comparison.evaluate]
  rw [hleft.value hl, hright.value hr, Result.ok_bind, Result.ok_bind, hcompare, Entry.equates]
  cases hnull : a.isNull || b.isNull with
  | true => rfl
  | false =>
    simp only [Bool.false_eq_true, if_false, Relation.test]
    cases a.roundedPlace.order b.roundedPlace <;> rfl

end Join

end PageDb
