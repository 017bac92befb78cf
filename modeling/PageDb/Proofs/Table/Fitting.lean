import PageDb.Proofs.Table.Standing
import PageDb.Proofs.Widening
import Mathlib.Data.List.Forall2

/-!
Rows that fit their schema.

Validation answers only with values that the column may hold, so every row that a table stores fits
the schema of the table.
-/

namespace PageDb

/-- Whether an entry may stand in the column. -/
structure Column.Admits (c : Column) (e : Entry) : Prop where
  fits : e.fits c.type
  notNull : c.notNull = true → e ≠ .null
  length : c.exceeds e = false
  quiet : e.Quiet

/-- Whether a row has an entry for each column, which the column admits. -/
def Row.Fits (r : Row) (s : Schema) : Prop := List.Forall₂ Column.Admits s.columns r.entries

/-- A schema whose primary column is there and excludes null. -/
def Schema.Proper (s : Schema) : Prop :=
  ∃ c, s.columns[s.primaryIndex]? = some c ∧ c.notNull = true

instance (s : Schema) : Decidable s.Proper :=
  decidable_of_iff ((s.columns[s.primaryIndex]?).any Column.notNull = true) (Option.any_eq_true _ _)

theorem Schema.Proper.primaryIndex_lt {s : Schema} (h : s.Proper) :
    s.primaryIndex < s.columns.length := by
  obtain ⟨c, hc, -⟩ := h
  exact (List.getElem?_eq_some_iff.1 hc).1

/-- A row that fits has an entry in the primary column. -/
theorem Row.Fits.primaryIndex_lt {row : Row} {s : Schema} (h : row.Fits s) (hs : s.Proper) :
    s.primaryIndex < row.entries.length :=
  List.Forall₂.length_eq h ▸ hs.primaryIndex_lt

/-- Schemas are proper as they are made, since a primary column excludes null. -/
theorem Schema.proper_of_ofColumns {columns : List Column} {s : Schema}
    (h : Schema.ofColumns columns = .ok s)
    (hprimary : ∀ c ∈ columns, c.primary = true → c.notNull = true) : s.Proper := by
  unfold ofColumns at h
  split at h
  · cases h
  split at h
  · rename_i i hone
    cases h
    have hi : i ∈ primaries columns := by simp [hone]
    obtain ⟨-, hi⟩ := List.mem_filter.1 hi
    cases hc : columns[i]? with
    | none => simp [hc] at hi
    | some c =>
      exact ⟨c, hc, hprimary c (List.mem_of_getElem? hc) (by simpa [hc] using hi)⟩
  · cases h

theorem nodup_of_firstRepeated? {seen names : List String} (h : firstRepeated? seen names = none) :
    names.Nodup ∧ ∀ name ∈ names, name ∉ seen := by
  induction names generalizing seen with
  | nil => simp
  | cons name rest ih =>
    unfold firstRepeated? at h
    split at h
    · cases h
    · rename_i hnew
      obtain ⟨hrest, hlater⟩ := ih h
      refine ⟨List.nodup_cons.2 ⟨fun hmem => hlater name hmem (by simp), hrest⟩, ?_⟩
      intro other hother
      rcases List.mem_cons.1 hother with rfl | hother
      · exact hnew
      · exact fun hseen => hlater other hother (by simp [hseen])

/-- The names of the columns do not repeat. -/
theorem Schema.nodup_names_of_ofColumns {columns : List Column} {s : Schema}
    (h : Schema.ofColumns columns = .ok s) : s.names.Nodup := by
  unfold ofColumns at h
  split at h
  · cases h
  · rename_i hnone
    split at h
    · cases h
      exact (nodup_of_firstRepeated? hnone).1
    · cases h

namespace Entry

theorem type?_ofNumber {x : Binary .double} {t : ColumnType} {v : Entry}
    (h : ofNumber x t = .ok v) : v.type? = some t := by
  cases t with
  | text => cases h
  | _ =>
    cases h
    rfl

theorem quiet_ofNumber {x : Binary .double} {t : ColumnType} {v : Entry}
    (h : ofNumber x t = .ok v) : v.Quiet := by
  cases t with
  | float =>
    cases h
    exact x.quiet_convert
  | text => cases h
  | _ =>
    cases h
    trivial

/-- Coercion goes by the number of the entry, unless integers or texts stay what they are. -/
theorem coerce_cases {e v : Entry} {t : ColumnType} (he : e.isNull = false)
    (h : e.coerce t = .ok v) :
    (∃ x, ofNumber x t = .ok v) ∨ v.type? = some t ∧ t ≠ .float := by
  cases e with
  | null => cases he
  | text s =>
    cases t <;> cases h
    exact .inr ⟨rfl, by decide⟩
  | int i =>
    cases t with
    | int => cases h; exact .inr ⟨rfl, by decide⟩
    | long => cases h; exact .inr ⟨rfl, by decide⟩
    | float => exact .inl ⟨_, h⟩
    | double => exact .inl ⟨_, h⟩
    | text => cases h
  | long i =>
    cases t with
    | int =>
      unfold coerce at h
      simp only at h
      split at h
      · cases h
        exact .inr ⟨rfl, by decide⟩
      · cases h
    | long => cases h; exact .inr ⟨rfl, by decide⟩
    | float => exact .inl ⟨_, h⟩
    | double => exact .inl ⟨_, h⟩
    | text => cases h
  | float x => exact .inl ⟨x.convert .double, by cases t <;> exact h⟩
  | double x => exact .inl ⟨x, by cases t <;> exact h⟩

/-- Coercion answers with a value of the type, and with null only for null. -/
theorem type?_coerce {e v : Entry} {t : ColumnType} (he : e.isNull = false)
    (h : e.coerce t = .ok v) : v.type? = some t := by
  rcases coerce_cases he h with ⟨x, hx⟩ | ⟨htype, -⟩
  · exact type?_ofNumber hx
  · exact htype

/-- Coercion answers with quiet numbers only. -/
theorem quiet_coerce {e v : Entry} {t : ColumnType} (he : e.isNull = false)
    (h : e.coerce t = .ok v) : v.Quiet := by
  rcases coerce_cases he h with ⟨x, hx⟩ | ⟨htype, hfloat⟩
  · exact quiet_ofNumber hx
  · cases v with
    | float x =>
      cases htype
      exact absurd rfl hfloat
    | _ => trivial

end Entry

/-- Validation answers with what the column admits. -/
theorem Column.validate_admits {c : Column} {e v : Entry} (h : c.validate e = .ok v) :
    c.Admits v := by
  unfold validate at h
  split at h
  · split at h
    · cases h
    · rename_i hnull
      cases h
      exact ⟨.inl rfl, fun hnot => absurd hnot hnull, by simp [exceeds], trivial⟩
  · rename_i hnonnull
    obtain ⟨value, hvalue, h⟩ := Result.bind_eq_ok.1 h
    have htype := Entry.type?_coerce (Bool.eq_false_iff.2 hnonnull) hvalue
    have hquiet := Entry.quiet_coerce (Bool.eq_false_iff.2 hnonnull) hvalue
    split at h
    · cases h
    · rename_i hlength
      cases h
      refine ⟨.inr htype, fun _ hnull => ?_, Bool.eq_false_iff.2 hlength, hquiet⟩
      rw [hnull] at htype
      cases htype

/-- Lists of related members, by place. -/
theorem forall₂_iff_getElem? {α β : Type} {R : α → β → Prop} {l : List α} {l' : List β} :
    List.Forall₂ R l l' ↔ l.length = l'.length ∧
      ∀ (k : Nat) a b, l[k]? = some a → l'[k]? = some b → R a b := by
  constructor
  · intro h
    refine ⟨h.length_eq, fun k a b ha hb => ?_⟩
    obtain ⟨hlt, rfl⟩ := List.getElem?_eq_some_iff.1 ha
    obtain ⟨hlt', rfl⟩ := List.getElem?_eq_some_iff.1 hb
    exact (List.forall₂_iff_get.1 h).2 k hlt hlt'
  · rintro ⟨hlength, h⟩
    refine List.forall₂_iff_get.2 ⟨hlength, fun k hlt hlt' => ?_⟩
    exact h k _ _ (List.getElem?_eq_getElem hlt) (List.getElem?_eq_getElem hlt')

/-- What a list of computations answers, place by place. -/
theorem forall₂_of_mapM {α β : Type} {f : α → Result β} {l : List α} {made : List β}
    (h : l.mapM f = .ok made) : List.Forall₂ (fun a b => f a = .ok b) l made := by
  induction l generalizing made with
  | nil =>
    cases h
    exact .nil
  | cons a l ih =>
    rw [List.mapM_cons] at h
    obtain ⟨b, hb, h⟩ := Result.bind_eq_ok.1 h
    obtain ⟨rest, hrest, h⟩ := Result.bind_eq_ok.1 h
    cases h
    exact .cons hb (ih hrest)

/-- Entries that are validated fit the columns. -/
theorem Table.validateAll_fits {columns : List Column} {entries values : List Entry}
    (hlength : entries.length = columns.length)
    (h : Table.validateAll columns entries = .ok values) :
    List.Forall₂ Column.Admits columns values := by
  have hvalues := forall₂_of_mapM h
  clear h
  induction columns generalizing entries values with
  | nil =>
    cases hvalues
    exact .nil
  | cons c columns ih =>
    cases entries with
    | nil => cases hlength
    | cons e entries =>
      rcases hvalues with _ | ⟨hvalue, hvalues⟩
      exact .cons (Column.validate_admits hvalue) (ih (by simpa using hlength) hvalues)

/-- A binding of a table: the row fits the schema and is found under its own key, bit for bit. -/
structure Schema.Binds (s : Schema) (b : Entry × Row) : Prop where
  fits : b.2.Fits s
  key : b.1 = b.2.keyAt s.primaryIndex

/-- Tables with proper schemas that stand apart from each other and hold rows that fit. -/
structure Tablespace.Orderly (tables : List Table) (s : Tablespace) : Prop where
  apart : Table.AllApart tables
  stands : ∀ t ∈ tables, t.Stands s
  proper : ∀ t ∈ tables, t.schema.Proper
  binds : ∀ t ∈ tables, ∀ b ∈ (t.contents s).toList, t.schema.Binds b

namespace Tablespace.Orderly

variable {tables : List Table} {s : Tablespace} {t : Table}

/-- The contents of orderly tables, as a function of the table. -/
theorem holds (h : Orderly tables s) : Holds tables (fun t => t.contents s) s :=
  fun t ht => ⟨h.stands t ht, rfl⟩

theorem fits (h : Orderly tables s) (ht : t ∈ tables) {row : Row}
    (hrow : row ∈ (t.contents s).values) : row.Fits t.schema := by
  obtain ⟨b, hb, rfl⟩ := List.mem_map.1 hrow
  exact (h.binds t ht b hb).fits

end Tablespace.Orderly

end PageDb
