import PageDb.Proofs.Narrowing
import PageDb.Proofs.Query.Equijoin
import PageDb.Proofs.Query.Scanning

/-!
Looking one row up.

A selection that equates the primary column with a constant is answered by looking the constant up.
The constant is converted to a key for that, and the row that is found has to be accepted.  A row that
is accepted has the key that is looked up, unless the key is an integer beyond `2 ^ 53`: there several
keys have one rounded value, and only one of them is looked up.
-/

namespace PageDb

/-! ## The name of the primary column -/

/-- The parts of a text are the one before the first dot and the parts of what follows it. -/
theorem splitAtDots_eq (cs : List Char) :
    splitAtDots cs = match splitAtFirstDot cs with
      | none => [cs]
      | some (first, rest) => first :: splitAtDots rest := by
  induction cs with
  | nil => rfl
  | cons c cs ih =>
    obtain ⟨part, parts, hparts⟩ := List.exists_cons_of_ne_nil (splitAtDots_ne_nil cs)
    by_cases hdot : c = '.'
    · subst hdot
      simp [splitAtDots, splitAtFirstDot, hparts]
    · have hfirst : splitAtFirstDot (c :: cs) =
          (splitAtFirstDot cs).map fun b => (c :: b.1, b.2) := by
        simp only [splitAtFirstDot, List.dropWhile_cons, List.takeWhile_cons, ne_eq, hdot,
          not_false_eq_true, decide_true, if_true]
        split <;> rfl
      rw [hfirst, splitAtDots, hparts]
      simp only [hdot, if_false]
      rw [hparts] at ih
      cases hsplit : splitAtFirstDot cs with
      | none =>
        rw [hsplit] at ih
        obtain ⟨rfl, rfl⟩ := List.cons.inj ih
        rfl
      | some b =>
        rw [hsplit] at ih
        obtain ⟨rfl, rfl⟩ := List.cons.inj ih
        rfl

/-- Where names do not repeat, the name of the primary column belongs to that column. -/
theorem Schema.eq_primaryIndex_of_indexOf? {s : Schema} (hnames : s.names.Nodup) (hproper : s.Proper)
    {i : Nat} (h : s.indexOf? s.primaryName = some i) : i = s.primaryIndex := by
  obtain ⟨c, hc, -⟩ := hproper
  obtain ⟨hprimary, hlast⟩ := List.getElem?_eq_some_iff.1 hc
  obtain ⟨hi, hfound, -⟩ := List.findIdx?_eq_some_iff_getElem.1 h
  have hlength : s.names.length = s.columns.length := List.length_map _
  have hi' : i < s.names.length := hlength ▸ hi
  have hprimary' : s.primaryIndex < s.names.length := hlength ▸ hprimary
  refine hnames.getElem_inj_iff.1 (show s.names[i] = s.names[s.primaryIndex] from ?_)
  simp only [names, List.getElem_map]
  rw [of_decide_eq_true hfound, primaryName, primaryColumn, hc, Option.getD_some, hlast]

namespace Table

variable {t : Table} {name : String} {ref : ColumnRef}

/-- A name of the primary column finds the primary column if it finds any. -/
theorem eq_primary_of_resolve (hnames : t.schema.names.Nodup) (hproper : t.schema.Proper)
    (hname : t.isPrimaryName name = true) (h : Heading.resolve [t.heading] name = .ok ref) :
    ref.table = 0 ∧ ref.column = t.primaryIndex := by
  suffices hcolumn : t.heading.column? 0 0 t.schema.primaryName = some ref by
    simp only [Heading.column?, Option.bind_eq_bind, Option.bind_eq_some_iff, Option.pure_def,
      Option.some.injEq] at hcolumn
    obtain ⟨i, hi, c, -, rfl⟩ := hcolumn
    exact ⟨rfl, Schema.eq_primaryIndex_of_indexOf? hnames hproper hi⟩
  unfold Heading.resolve nameParts at h
  rw [splitAtDots_eq] at h
  unfold isPrimaryName at hname
  cases hsplit : splitAtFirstDot name.toList with
  | none =>
    simp only [hsplit, decide_eq_true_eq] at hname h
    subst hname
    simp only [List.map_cons, List.map_nil, String.ofList_toList, Heading.resolveBare,
      Heading.columnsNamed, List.append_nil] at h
    cases hcolumn : t.heading.column? 0 0 t.schema.primaryName with
    | none => simp [hcolumn] at h
    | some found => simpa [hcolumn] using h
  | some b =>
    obtain ⟨first, rest⟩ := b
    simp only [hsplit, Bool.and_eq_true, decide_eq_true_eq] at hname h
    obtain ⟨rfl, rfl⟩ := hname
    rw [List.map_cons, String.ofList_toList] at h
    split at h
    · rename_i hone
      exact absurd (List.map_eq_nil_iff.1 (List.cons.inj hone).2) (splitAtDots_ne_nil _)
    · rename_i table column hboth
      obtain ⟨rfl, hrest⟩ := List.cons.inj hboth
      obtain ⟨part, hpart, rfl⟩ := List.map_eq_singleton_iff.1 hrest
      obtain rfl := eq_of_splitAtDots_eq_singleton hpart
      have hqualified : Heading.findQualified? [t.heading] t.name
          (String.ofList t.schema.primaryName.toList) =
            t.heading.column? 0 0 t.schema.primaryName := by
        rw [String.ofList_toList]
        simp [Heading.findQualified?, Heading.tableNamed?, heading]
      rw [hqualified] at h
      split at h
      · rename_i hfound
        rw [hfound, Except.ok.inj h]
      · cases h
    · cases h

end Table
/-! ## Constants -/

namespace Operand

/-- Whether a constant is what an entry is to a predicate. -/
def standsFor (o : Operand) (e : Entry) : Bool :=
  match o with
  | .number x => e.number? = some x
  | .text s => e = .text s
  | _ => false

variable {o : Operand} {e : Entry} {type : ColumnType}

/-- A constant that stands for an entry is converted to it, unless it may be the rounded value of
several ones. -/
theorem toEntry_of_standsFor (htype : e.type? = some type) (hquiet : e.Quiet)
    (hexact : ∀ v, e = .long v → v.toInt.natAbs < 2 ^ 53) (h : o.standsFor e = true) :
    o.toEntry type = .ok e := by
  cases o with
  | column name => cases h
  | null => cases h
  | text s =>
    obtain rfl : e = .text s := of_decide_eq_true h
    obtain rfl : ColumnType.text = type := Option.some.inj htype
    rfl
  | number x =>
    have hx : e.number? = some x := of_decide_eq_true h
    cases e with
    | null => cases hx
    | text s => cases hx
    | int v =>
      obtain rfl : ColumnType.int = type := Option.some.inj htype
      obtain rfl : Binary.ofInt .double v.toInt = x := Option.some.inj hx
      have hlo : Entry.intBounds.1 ≤ v.toInt := v.le_toInt
      have hhi : v.toInt ≤ Entry.intBounds.2 := Int.le_of_lt_add_one v.toInt_lt
      have hexact := Entry.natAbs_int32_lt v
      rw [toEntry, Entry.ofNumber, Binary.truncate_ofInt (by omega) hlo hhi, Int32.ofInt_toInt]
    | long v =>
      obtain rfl : ColumnType.long = type := Option.some.inj htype
      obtain rfl : Binary.ofInt .double v.toInt = x := Option.some.inj hx
      have hlo : Entry.longBounds.1 ≤ v.toInt := v.le_toInt
      have hhi : v.toInt ≤ Entry.longBounds.2 := Int.le_of_lt_add_one v.toInt_lt
      rw [toEntry, Entry.ofNumber, Binary.truncate_ofInt (hexact v rfl) hlo hhi, Int64.ofInt_toInt]
    | float x =>
      obtain rfl : ColumnType.float = type := Option.some.inj htype
      obtain rfl : x.convert .double = _ := Option.some.inj hx
      rw [toEntry, Entry.ofNumber, Binary.convert_single_convert hquiet]
    | double x =>
      obtain rfl : ColumnType.double = type := Option.some.inj htype
      obtain rfl : x = _ := Option.some.inj hx
      rfl

/-- What a predicate reads in a column that holds no null. -/
theorem text_or_number (htype : e.type? = some type) :
    (∃ s, e = .text s ∧ type = .text) ∨
      ∃ x, e.number? = some x ∧ type ≠ .text ∧ Scalar.ofEntry e type = .number x := by
  cases e with
  | null => cases htype
  | text s => exact .inl ⟨s, rfl, (Option.some.inj htype).symm⟩
  | _ =>
    obtain rfl := Option.some.inj htype
    exact .inr ⟨_, rfl, nofun, rfl⟩

/-- A constant that can be compared with the values of a column is converted to one of them, and it is
equal to those that it stands for. -/
theorem exists_toEntry {scalar : Scalar} (htype : e.type? = some type)
    (hvalue : o.value none = .ok scalar) (hnull : o ≠ .null) {x : Option Ordering}
    (h : (Scalar.ofEntry e type).compare scalar = .ok x ∨
      scalar.compare (Scalar.ofEntry e type) = .ok x) :
    (∃ key, o.toEntry type = .ok key ∧ key.fits type) ∧
      ∃ order, x = some order ∧ (order = .eq ↔ o.standsFor e = true) := by
  cases o with
  | column name => cases hvalue
  | null => exact absurd rfl hnull
  | text s =>
    obtain rfl : Scalar.text s = scalar := Except.ok.inj hvalue
    rcases text_or_number htype with ⟨s', rfl, rfl⟩ | ⟨y, -, -, hscalar⟩
    · refine ⟨⟨.text s, rfl, .inr rfl⟩, ?_⟩
      have hstands : (text s).standsFor (.text s') = true ↔ s' = s := by simp [standsFor]
      rcases h with h | h
      · exact ⟨_, (Except.ok.inj h).symm, by rw [hstands, Std.LawfulEqOrd.compare_eq_iff_eq]⟩
      · exact ⟨_, (Except.ok.inj h).symm, by rw [hstands, Std.LawfulEqOrd.compare_eq_iff_eq, eq_comm]⟩
    · rw [hscalar] at h
      rcases h with h | h <;> cases h
  | number y =>
    obtain rfl : Scalar.number y = scalar := Except.ok.inj hvalue
    rcases text_or_number htype with ⟨s', rfl, rfl⟩ | ⟨y', hnumber, htext, hscalar⟩
    · rcases h with h | h <;> cases h
    · refine ⟨?_, ?_⟩
      · cases type with
        | text => exact absurd rfl htext
        | _ => exact ⟨_, rfl, .inr rfl⟩
      · have hstands : (number y).standsFor e = true ↔ y'.key = y.key := by
          simp only [standsFor, hnumber, Option.some.injEq, decide_eq_true_eq]
          exact ⟨congrArg Binary.key, Binary.key_injective⟩
        rw [hscalar] at h
        rcases h with h | h
        · exact ⟨_, (Except.ok.inj h).symm, by rw [hstands, Std.LawfulEqOrd.compare_eq_iff_eq]⟩
        · exact ⟨_, (Except.ok.inj h).symm,
            by rw [hstands, Std.LawfulEqOrd.compare_eq_iff_eq, eq_comm]⟩

end Operand

/-! ## Rows that a lookup accepts -/

namespace Table

variable {tables : List Table} {s : Tablespace} {t : Table} {row : Row} {name : String}
  {constant : Operand} {p : Option Predicate}

/-- The key of a row is a value of the primary column. -/
theorem keyAt_admitted (h : Tablespace.Orderly tables s) (ht : t ∈ tables)
    (hrow : row ∈ (t.contents s).values) :
    (row.keyAt t.primaryIndex).type? = some t.keyType ∧ (row.keyAt t.primaryIndex).Quiet := by
  obtain ⟨c, hc, hnotNull⟩ := h.proper t ht
  obtain ⟨hlength, hadmits⟩ := forall₂_iff_getElem?.1 (h.fits ht hrow)
  have hindex : t.primaryIndex < row.entries.length :=
    Row.Fits.primaryIndex_lt (h.fits ht hrow) (h.proper t ht)
  have hentry := List.getElem?_eq_getElem hindex
  have hcell := hadmits _ c _ hc hentry
  have hkey : row.keyAt t.primaryIndex = row.entries[t.primaryIndex] := by
    rw [Row.keyAt, hentry, Option.getD_some]
  have htype : t.keyType = c.type := by
    rw [keyType, Schema.primaryColumn, hc, Option.getD_some]
  rw [hkey, htype]
  exact ⟨hcell.fits.resolve_left (hcell.notNull hnotNull), hcell.quiet⟩

/-- What a predicate reads under a name of the primary column is the key. -/
theorem value_primary (h : Tablespace.Orderly tables s) (ht : t ∈ tables)
    (hnames : t.schema.names.Nodup) (hrow : row ∈ (t.contents s).values)
    (hname : t.isPrimaryName name = true) {v : Scalar}
    (hv : (Operand.column name).value (some (t.jointRow row)) = .ok v) :
    v = Scalar.ofEntry (row.keyAt t.primaryIndex) t.keyType := by
  obtain ⟨⟨e, type⟩, hlookup, -⟩ := Result.bind_eq_ok.1 hv
  obtain ⟨ref, href, -⟩ := Result.bind_eq_ok.1 hlookup
  have hone : Tablespace.Orderly [t] s := h.mono (by simpa using ht)
  have hmade : [row] ∈ Join.choices [t] fun t => t.contents s :=
    Join.mem_choices_iff.2 (.cons hrow .nil)
  obtain ⟨u, row', e, hcell⟩ := Join.exists_cell hone hmade href
  obtain ⟨htable, hcolumn⟩ := eq_primary_of_resolve hnames (h.proper t ht) hname href
  obtain rfl : t = u := by simpa [htable] using hcell.table
  obtain rfl : row = row' := by simpa [htable] using hcell.chosen
  have hprimary : Join.isPrimary [t] ref = true := by simp [Join.isPrimary, htable, hcolumn]
  obtain ⟨rfl, htype, -⟩ := hcell.primary (h.proper t ht) hprimary
  rw [← htype]
  exact Except.ok.inj (hv.symm.trans (hcell.value href))

/-- A key constant is one side of the comparison, and the other one is the primary column. -/
theorem eq_of_keyConstant? {c : Comparison} (h : t.keyConstant? c = some constant) :
    constant.isColumn = false ∧ ∃ name, t.isPrimaryName name = true ∧
      (c.left = .column name ∧ c.right = constant ∨ c.left = constant ∧ c.right = .column name) := by
  obtain ⟨left, relation, right⟩ := c
  unfold keyConstant? at h
  split at h
  · rename_i hleft
    split at h
    · rename_i hboth
      obtain rfl := Option.some.inj h
      simp only [Bool.and_eq_true, Bool.not_eq_true'] at hboth
      exact ⟨hboth.1, _, hboth.2, .inl ⟨hleft, rfl⟩⟩
    · cases h
  · rename_i hright hnot
    split at h
    · rename_i hname
      obtain rfl := Option.some.inj h
      refine ⟨?_, _, hname, .inr ⟨rfl, hright⟩⟩
      cases left with
      | column name => exact absurd rfl (hnot name)
      | _ => rfl
    · cases h
  · cases h

/-- A row is accepted if the constant stands for its key, and the constant is converted to some key. -/
theorem accepts_of_lookup (h : Tablespace.Orderly tables s) (ht : t ∈ tables)
    (hnames : t.schema.names.Nodup) (hplan : t.planFor p = .lookup constant)
    (hrow : row ∈ (t.contents s).values) {b : Bool}
    (hb : Predicate.accepts p (t.jointRow row) = .ok b) :
    b = constant.standsFor (row.keyAt t.primaryIndex) ∧
      ∃ key, constant.toEntry t.keyType = .ok key ∧ key.fits t.keyType := by
  have hchooses := t.chooses_planFor p
  rw [hplan] at hchooses
  cases hchooses with
  | @lookup c _ hrelation hkey hnull =>
  obtain ⟨hconstant, name, hname, hsides⟩ := eq_of_keyConstant? hkey
  obtain ⟨truth, htruth, hb⟩ := Result.bind_eq_ok.1 hb
  obtain ⟨left, hleft, htruth⟩ := Result.bind_eq_ok.1 htruth
  obtain ⟨right, hright, htruth⟩ := Result.bind_eq_ok.1 htruth
  obtain ⟨x, hx, htruth⟩ := Result.bind_eq_ok.1 htruth
  obtain ⟨htype, -⟩ := keyAt_admitted h ht hrow
  have hresult : (∃ key, constant.toEntry t.keyType = .ok key ∧ key.fits t.keyType) ∧
      ∃ order, x = some order ∧
        (order = .eq ↔ constant.standsFor (row.keyAt t.primaryIndex) = true) := by
    rcases hsides with ⟨hcolumn, hother⟩ | ⟨hother, hcolumn⟩
    · rw [hcolumn] at hleft
      rw [hother, Operand.value_of_constant hconstant] at hright
      obtain rfl := value_primary h ht hnames hrow hname hleft
      exact Operand.exists_toEntry htype hright hnull (.inl hx)
    · rw [hcolumn] at hright
      rw [hother, Operand.value_of_constant hconstant] at hleft
      obtain rfl := value_primary h ht hnames hrow hname hright
      exact Operand.exists_toEntry htype hleft hnull (.inr hx)
  obtain ⟨hkeys, order, rfl, hiff⟩ := hresult
  refine ⟨?_, hkeys⟩
  cases htruth
  cases hb
  rw [hrelation, Bool.eq_iff_iff, ← hiff]
  cases order <;> simp [Relation.test, Truth.ofBool, Truth.isTrue]

/-- An accepted row has the key that is looked up, unless its own key may have been rounded. -/
theorem same_of_lookup (h : Tablespace.Orderly tables s) (ht : t ∈ tables)
    (hnames : t.schema.names.Nodup) (hplan : t.planFor p = .lookup constant)
    (hrow : row ∈ (t.contents s).values)
    (haccepts : Predicate.accepts p (t.jointRow row) = .ok true)
    (hexact : ∀ v, row.keyAt t.primaryIndex = .long v → v.toInt.natAbs < 2 ^ 53) {key : Entry}
    (hkey : constant.toEntry t.keyType = .ok key) :
    (row.keyAt t.primaryIndex).same key = true := by
  obtain ⟨hstands, -⟩ := accepts_of_lookup h ht hnames hplan hrow haccepts
  obtain ⟨htype, hquiet⟩ := keyAt_admitted h ht hrow
  have hentry := Operand.toEntry_of_standsFor htype hquiet hexact hstands.symm
  obtain rfl := Except.ok.inj (hentry.symm.trans hkey)
  exact Entry.same_refl (.inr htype)

/-- A selection that a lookup answers is no comparison of constants. -/
theorem not_unanswerable_of_lookup (hplan : t.planFor p = .lookup constant) :
    ¬ Predicate.Unanswerable p := by
  rintro ⟨c, e, rfl, hcolumn, -⟩
  simp [planFor, hcolumn] at hplan

end Table

/-- The rows with a key are the row that the key finds, if there is one. -/
theorem Tablespace.Holds.filter_same {tables : List Table} {rows : Table → SortedMap Entry Row}
    {s : Tablespace} {t : Table} (h : Tablespace.Holds tables rows s) (ht : t ∈ tables) {key : Entry}
    (hkey : key.fits t.keyType) :
    ((rows t).values.filter fun row => (row.keyAt t.primaryIndex).same key) =
      ((rows t).get? key).toList := by
  have hget {row : Row} (hrow : row ∈ (rows t).values)
      (hsame : (row.keyAt t.primaryIndex).same key = true) : (rows t).get? key = some row := by
    obtain ⟨hkeyed, hown⟩ := h.found ht hrow
    rw [← hown]
    exact SortedMap.get?_congr (Entry.orderedOn_fits _) (h.ascending ht) hkey hkeyed.fits
      ((Entry.orderedOn_fits _).symm hkeyed.fits hkey (Entry.same_iff.1 hsame))
  cases hfound : (rows t).get? key with
  | none =>
    refine List.filter_eq_nil_iff.2 fun row hrow hsame => ?_
    rw [hget hrow hsame] at hfound
    cases hfound
  | some found =>
    have hsame := (h.keyed ht hkey hfound).2
    have hiff : ∀ row ∈ (rows t).values,
        (row.keyAt t.primaryIndex).same key = (row == found) := by
      intro row hrow
      rw [Bool.eq_iff_iff, beq_iff_eq]
      exact ⟨fun hrowSame => Option.some.inj ((hget hrow hrowSame).symm.trans hfound),
        fun heq => heq ▸ hsame⟩
    rw [List.filter_congr hiff, List.filter_beq, List.count_eq_one_of_mem (h.nodup_values ht)
      (Join.mem_values_of_get? hfound)]
    rfl

/-- Where the selection has an answer for every row, it makes no errors of them. -/
theorem Scan.judged_of_answers {t : Table} {p : Option Predicate} {list : List Row}
    (h : ∀ row ∈ list, ∃ b, Predicate.accepts p (t.jointRow row) = .ok b) :
    judged t p list = (list.filter fun row => passes (Predicate.accepts p) (t.jointRow row)).map
      fun row => .ok (t.jointRow row) := by
  induction list with
  | nil => rfl
  | cons row list ih =>
    obtain ⟨b, hb⟩ := h row (by simp)
    rw [judged_cons, hb, ih fun r hr => h r (by simp [hr]), List.filter_cons, passes_of_ok hb]
    cases b <;> rfl

/-- A lookup gives out the rows that the selection accepts and that have the key. -/
theorem Scan.due_of_lookup {tables : List Table} {rows : Table → SortedMap Entry Row}
    {s : Tablespace} {t : Table} (h : Tablespace.Holds tables rows s) (ht : t ∈ tables)
    {p : Option Predicate} {constant : Operand} (hplan : t.planFor p = .lookup constant) {key : Entry}
    (hkey : constant.toEntry t.keyType = .ok key) (hfits : key.fits t.keyType)
    (hanswers : ∀ row ∈ (rows t).values, ∃ b, Predicate.accepts p (t.jointRow row) = .ok b) :
    due t (rows t) p =
      (((rows t).values.filter fun row => passes (Predicate.accepts p) (t.jointRow row)).filter
        fun row => (row.keyAt t.primaryIndex).same key).map fun row => .ok (t.jointRow row) := by
  have hfound : ∀ row ∈ ((rows t).get? key).toList,
      ∃ b, Predicate.accepts p (t.jointRow row) = .ok b :=
    fun row hrow => hanswers row (Join.mem_values_of_get? (Option.mem_toList.1 hrow))
  simp only [due, hplan, found, hkey]
  rw [judged_of_answers hfound, ← h.filter_same ht hfits, List.filter_comm]

/-- Draining a query that looks a constant up gives out the rows that the selection accepts and that have
the key to which the constant is converted.  These are all rows that it accepts if no accepted row has
another key, and in particular if the accepted keys are no integers beyond `2 ^ 53`. -/
theorem Query.drains_lookup {tables : List Table} {s : Tablespace} (h : Tablespace.Orderly tables s)
    {t : Table} (ht : t ∈ tables) (hschema : Schema.ofColumns t.schema.columns = .ok t.schema)
    {p : Option Predicate} {constant : Operand} (hplan : t.planFor p = .lookup constant)
    (hne : (t.contents s).values ≠ [])
    (hanswers : ∀ row ∈ (t.contents s).values,
      ∃ b, Predicate.accepts p (t.jointRow row) = .ok b) :
    let start : Query × Tablespace := ((Query.ofTable t).withSelection p, s)
    let rows : Table → SortedMap Entry Row := fun t => t.contents s
    let matching := (rows t).values.filter fun row => passes (Predicate.accepts p) (t.jointRow row)
    let items (list : List Row) : List (Result JointRow) := list.map fun row => .ok (t.jointRow row)
    ∃ key, constant.toEntry t.keyType = .ok key ∧
      Moving.Drains Query.next tables rows start
        (items (matching.filter fun row => (row.keyAt t.primaryIndex).same key)) ∧
      (Moving.Drains Query.next tables rows start (items matching) ↔
        ∀ row ∈ matching, (row.keyAt t.primaryIndex).same key = true) ∧
      ((∀ row ∈ matching, ∀ v, row.keyAt t.primaryIndex = .long v → v.toInt.natAbs < 2 ^ 53) →
        Moving.Drains Query.next tables rows start (items matching)) := by
  intro start rows matching items
  have hnames := Schema.nodup_names_of_ofColumns hschema
  obtain ⟨first, hfirst⟩ := List.exists_mem_of_ne_nil _ hne
  obtain ⟨b, hb⟩ := hanswers first hfirst
  obtain ⟨-, key, hkey, hfits⟩ := Table.accepts_of_lookup h ht hnames hplan hfirst hb
  have hdrains : Moving.Drains Query.next tables rows start
      (items (matching.filter fun row => (row.keyAt t.primaryIndex).same key)) := by
    have hdue := drains_due h.holds h.apart ht (Table.not_unanswerable_of_lookup hplan)
    rwa [Scan.due_of_lookup h.holds ht hplan hkey hfits hanswers] at hdue
  have hiff : Moving.Drains Query.next tables rows start (items matching) ↔
      ∀ row ∈ matching, (row.keyAt t.primaryIndex).same key = true := by
    constructor
    · intro hall
      have hlength := congrArg List.length (hall.unique hdrains)
      rw [List.length_map, List.length_map] at hlength
      exact List.length_filter_eq_length_iff.1 hlength.symm
    · intro hall
      rw [List.filter_eq_self.2 hall] at hdrains
      exact hdrains
  refine ⟨key, hkey, hdrains, hiff, fun hexact => hiff.2 fun row hrow => ?_⟩
  obtain ⟨hmem, hpasses⟩ := List.mem_filter.1 hrow
  obtain ⟨b, hb⟩ := hanswers row hmem
  obtain rfl : b = true := (passes_of_ok hb).symm.trans hpasses
  exact Table.same_of_lookup h ht hnames hplan hmem hb (hexact row hrow) hkey

/-- Keys that are equal to three halves; the constant comes first and the name has its table in front. -/
def threeHalves : Predicate :=
  .compare ⟨.number (.ofScaled .double false 3 (-1)), .eq, .column "u.x"⟩

/-- A key of four bytes is found by a constant of eight bytes. -/
theorem Query.drains_lookup_threeHalves :
    ∃ items, Moving.Drains Query.next (keyTables .float)
        (fun t => t.contents (withKeys .float [["0.5", "1.5"], []]))
        ((Query.ofTable (keyTable 1 "u" "x" .float)).withSelection (some threeHalves),
          withKeys .float [["0.5", "1.5"], []]) items ∧
      items.map (Except.map JointRow.entries) =
        [.ok [.float (.ofScaled .single false 3 (-1))]] := by
  have horderly := orderly_withKeys .float [["0.5", "1.5"], []]
  have ht : keyTable 1 "u" "x" .float ∈ keyTables .float := by simp [keyTables]
  have hanswers : ∀ row ∈ ((keyTable 1 "u" "x" .float).contents
      (withKeys .float [["0.5", "1.5"], []])).values, ∃ b,
        Predicate.accepts (some threeHalves) ((keyTable 1 "u" "x" .float).jointRow row) = .ok b := by
    decide +kernel
  obtain ⟨-, -, -, -, hall⟩ :=
    Query.drains_lookup horderly ht rfl rfl (by decide +kernel) hanswers
  refine ⟨_, hall fun row hrow v hv => ?_, by decide +kernel⟩
  obtain ⟨htype, -⟩ := Table.keyAt_admitted horderly ht (List.mem_filter.1 hrow).1
  rw [hv] at htype
  cases htype

/-- The selection is true of the only row, whose key is rounded to the constant; the key that the constant
is converted to is another one, and nothing is given out. -/
theorem Query.lookup_misses :
    let t := keyTable 1 "u" "x" .long
    let s := withKeys .long [["9007199254740993"], []]
    let p : Predicate := .compare ⟨.column "x", .eq, .number (.ofInt .double 9007199254740992)⟩
    t.planFor (some p) = .lookup (.number (.ofInt .double 9007199254740992)) ∧
      (t.contents s).values.map (fun row => Predicate.accepts (some p) (t.jointRow row)) =
        [.ok true] ∧
      (Query.rows.run ((Query.ofTable t).withSelection (some p), s)).1 = .ok [] := by
  decide +kernel

end PageDb
