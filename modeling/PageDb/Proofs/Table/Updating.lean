import PageDb.Proofs.Table.Lifetime
import PageDb.Proofs.Table.Setting

/-!
Updates of all rows that a filter accepts.

The value and the rows are settled before the first row changes, and then the rows change one after the
other.  A value for another column than the primary one suits every row, so none of them fails.  A value
for the primary column is a key: if it is there already no row takes it, and if it is new only the first
row does.
-/

namespace PageDb

namespace Table

variable {t : Table} {s s' : Tablespace}

namespace Steady

variable {I : Tablespace → Prop} {name : String} {operand : Operand} {filter : Option Predicate}
  {column : Nat} {value : Entry} {found : List Row} {e : Error} (hI : t.Steady I) (h : I s)

include hI h

/-- The rows are found before the first one changes; a filter that cannot judge one of them ends the
update there. -/
theorem updateWhere_unjudged (hvalue : t.columnValue name operand = .ok (column, value))
    (hfound : t.selected filter (t.contents s).values = .error e) (pin : Bool) :
    ∃ s', (t.updateWhere name operand filter pin).run s = (.error e, s') ∧ I s' ∧
      t.contents s' = t.contents s := by
  obtain ⟨s', hsearch, h', hcontents⟩ := hI.matchingKeys h filter
  rw [hfound] at hsearch
  refine ⟨s', ?_, h', hcontents⟩
  rw [updateWhere, hvalue, Action.run_bind_ok (Action.run_lift _ _), Action.run_bind_error hsearch]

/-- What is found is set, and counted if that succeeds. -/
theorem updateWhere_run (hvalue : t.columnValue name operand = .ok (column, value))
    (hfound : t.selected filter (t.contents s).values = .ok found) (pin : Bool) :
    ∃ s₁, I s₁ ∧ t.contents s₁ = t.contents s ∧ (t.updateWhere name operand filter pin).run s =
      (((t.setEach column value pin (found.map t.keyOf)).run s₁).1.map fun _ => found.length,
        ((t.setEach column value pin (found.map t.keyOf)).run s₁).2) := by
  obtain ⟨s₁, hsearch, h₁, hcontents⟩ := hI.matchingKeys h filter
  rw [hfound] at hsearch
  refine ⟨s₁, h₁, hcontents, ?_⟩
  rw [updateWhere, hvalue, Action.run_bind_ok (Action.run_lift _ _), Action.run_bind_ok hsearch]
  rcases hset : (t.setEach column value pin (found.map t.keyOf)).run s₁ with ⟨_ | _, s₂⟩
  · rw [Action.run_bind_error hset]
    rfl
  · rw [Action.run_bind_ok hset, List.length_map]
    rfl

/-- An update whose value is assignable succeeds and changes what it has found. -/
theorem updateWhere_assignable (hvalue : t.columnValue name operand = .ok (column, value))
    (hfound : t.selected filter (t.contents s).values = .ok found)
    (hassignable : t.Assignable column value (found.map t.keyOf) (t.contents s).keys) (pin : Bool) :
    ∃ s', (t.updateWhere name operand filter pin).run s = (.ok found.length, s') ∧ I s' ∧
      (t.contents s').values.Perm ((t.contents s).toList.map fun b =>
        if b.1 ∈ found.map t.keyOf then b.2.withEntry column value else b.2) := by
  have hkeys := hI.selected_keys_sublist h hfound
  obtain ⟨s₁, h₁, hcontents, hrun⟩ := hI.updateWhere_run h hvalue hfound pin
  rw [← hcontents] at hkeys hassignable ⊢
  obtain ⟨s', hset, h', hperm⟩ := hI.setEach_assignable h₁ (columnValue_lt hvalue)
    (columnValue_admits hvalue) hkeys hassignable pin
  exact ⟨s', by rw [hrun, hset]; rfl, h', hperm⟩

/-- Any other update fails. -/
theorem updateWhere_not_assignable (hvalue : t.columnValue name operand = .ok (column, value))
    (hfound : t.selected filter (t.contents s).values = .ok found)
    (hassignable : ¬ t.Assignable column value (found.map t.keyOf) (t.contents s).keys) (pin : Bool) :
    ∃ e s', (t.updateWhere name operand filter pin).run s = (.error e, s') ∧ I s' ∧
      (value ∈ (t.contents s).keys ∧ t.contents s' = t.contents s ∨
        value ∉ (t.contents s).keys ∧ 2 ≤ found.length ∧ value ∈ (t.contents s').keys) := by
  have hkeys := hI.selected_keys_sublist h hfound
  obtain ⟨s₁, h₁, hcontents, hrun⟩ := hI.updateWhere_run h hvalue hfound pin
  rw [← hcontents] at hkeys hassignable ⊢
  obtain ⟨e, s', hset, h', hcases⟩ := hI.setEach_not_assignable h₁ (columnValue_lt hvalue)
    (columnValue_admits hvalue) hkeys hassignable pin
  exact ⟨e, s', by rw [hrun, hset]; rfl, h', by simpa using hcases⟩

/-- An update whose filter can judge every row changes those of which it is true, if it succeeds.  It does
so exactly if the value is assignable. -/
theorem updateWhere_judged (hvalue : t.columnValue name operand = .ok (column, value))
    (hjudged : ∀ row ∈ (t.contents s).values, ∃ truth, t.judge filter row = .ok truth) (pin : Bool) :
    ∃ r s', (t.updateWhere name operand filter pin).run s = (r, s') ∧ I s' ∧
      ((∃ n, r = .ok n) ↔ t.Assignable column value
        ((t.chosen filter (t.contents s).values).map t.keyOf) (t.contents s).keys) ∧
      ∀ n, r = .ok n → n = (t.chosen filter (t.contents s).values).length ∧
        (t.contents s').values.Perm ((t.contents s).values.map fun row =>
          if t.judge filter row = .ok .yes then row.withEntry column value else row) := by
  have hfound := selected_eq_chosen hjudged
  by_cases hassignable : t.Assignable column value
    ((t.chosen filter (t.contents s).values).map t.keyOf) (t.contents s).keys
  case neg =>
    obtain ⟨e, s', hrun, h', -⟩ :=
      hI.updateWhere_not_assignable h hvalue hfound hassignable pin
    exact ⟨_, s', hrun, h', iff_of_false (by simp) hassignable, by simp⟩
  obtain ⟨s', hrun, h', hperm⟩ := hI.updateWhere_assignable h hvalue hfound hassignable pin
  refine ⟨_, s', hrun, h', iff_of_true ⟨_, rfl⟩ hassignable, fun n hn => ?_⟩
  cases hn
  refine ⟨rfl, hperm.trans (.of_eq ?_)⟩
  rw [SortedMap.values, List.map_map]
  refine List.map_congr_left fun b hb => ?_
  exact if_congr (hI.key_mem_chosen_iff h hb) rfl rfl

end Steady

/-- The keys and the row of each key are the same. -/
structure Unchanged (t : Table) (s s' : Tablespace) : Prop where
  keys : (t.keys.run s').1 = (t.keys.run s).1
  rows : ∀ key, ((t.get key).run s').1 = ((t.get key).run s).1

theorem Stands.unchanged (h : t.Stands s) (h' : t.Stands s') (hcontents : t.contents s' = t.contents s) :
    t.Unchanged s s' := by
  refine ⟨?_, fun key => ?_⟩
  · rw [h.keys, h'.keys, hcontents]
  · rw [h.get, h'.get, hcontents]

/-- Whether an update would give a key that is new to more than one row. -/
def Multiplies (t : Table) (name : String) (operand : Operand) (filter : Option Predicate)
    (s : Tablespace) : Prop :=
  ∃ key chosen, t.columnValue name operand = .ok (t.primaryIndex, key) ∧
    (t.contents s).contains key = false ∧ t.selected filter (t.contents s).values = .ok chosen ∧
      2 ≤ chosen.length

/-- What an update that fails leaves behind. -/
theorem Backed.updateWhere_error (h : t.Backed s) (hproper : t.schema.Proper) {name : String}
    {operand : Operand} {filter : Option Predicate} {pin : Bool} {e : Error}
    (hrun : (t.updateWhere name operand filter pin).run s = (.error e, s')) :
    t.Backed s' ∧ (¬ t.Multiplies name operand filter s ∧ t.contents s' = t.contents s ∨
      t.Multiplies name operand filter s ∧ (t.contents s').keys ≠ (t.contents s).keys) := by
  have hI := Backed.steady hproper
  cases hvalue : t.columnValue name operand with
  | error e' =>
    rw [updateWhere, hvalue, Action.run_bind_error (Action.run_lift _ _)] at hrun
    cases hrun
    refine ⟨h, .inl ⟨?_, rfl⟩⟩
    rintro ⟨key, chosen, hkey, -⟩
    cases hvalue.symm.trans hkey
  | ok target =>
    obtain ⟨column, value⟩ := target
    cases hfound : t.selected filter (t.contents s).values with
    | error e' =>
      obtain ⟨s₁, hunjudged, h', hcontents⟩ := hI.updateWhere_unjudged h hvalue hfound pin
      cases hunjudged.symm.trans hrun
      refine ⟨h', .inl ⟨?_, hcontents⟩⟩
      rintro ⟨key, chosen, -, -, hok, -⟩
      cases hfound.symm.trans hok
    | ok found =>
      by_cases hassignable : t.Assignable column value (found.map t.keyOf) (t.contents s).keys
      case pos =>
        obtain ⟨s₁, hok, -⟩ := hI.updateWhere_assignable h hvalue hfound hassignable pin
        cases hok.symm.trans hrun
      have hprimary : column = t.primaryIndex :=
        Decidable.of_not_not fun hother => hassignable (.inl hother)
      subst hprimary
      have hcontains := hI.contains_iff_mem_keys h (columnValue_admits hvalue)
      obtain ⟨e', s₁, hfails, h', hcases⟩ :=
        hI.updateWhere_not_assignable h hvalue hfound hassignable pin
      cases hfails.symm.trans hrun
      rcases hcases with ⟨htaken, hcontents⟩ | ⟨hnew, htwo, htaken⟩
      · refine ⟨h', .inl ⟨?_, hcontents⟩⟩
        rintro ⟨key, chosen, hkey, hnew, -⟩
        cases hvalue.symm.trans hkey
        cases (hcontains.2 htaken).symm.trans hnew
      · refine ⟨h', .inr ⟨⟨value, found, hvalue, ?_, hfound, htwo⟩, fun hsame => ?_⟩⟩
        · exact Bool.eq_false_iff.2 (mt hcontains.1 hnew)
        · exact hnew (hsame ▸ htaken)

/-- An update that fails leaves all keys and rows as they were, unless it would give a key that is new
to more than one row: then the first of these rows has the key, and the second one is refused. -/
theorem unchanged_iff_not_multiplies (h : t.Lived s) {name : String} {operand : Operand}
    {filter : Option Predicate} {pin : Bool} {e : Error}
    (hrun : (t.updateWhere name operand filter pin).run s = (.error e, s')) :
    t.Unchanged s s' ↔ ¬ t.Multiplies name operand filter s := by
  obtain ⟨hproper, hbacked⟩ := h.backed
  obtain ⟨hbacked', ⟨hnot, hcontents⟩ | ⟨hmultiplies, hkeys⟩⟩ := hbacked.updateWhere_error hproper hrun
  · exact iff_of_true (hbacked.stands.unchanged hbacked'.stands hcontents) hnot
  · refine iff_of_false (fun hunchanged => hkeys ?_) (not_not_intro hmultiplies)
    have hsame := hunchanged.keys
    rw [hbacked.stands.keys, hbacked'.stands.keys] at hsame
    exact Except.ok.inj hsame

theorem lived_stocked : stock.Lived stocked :=
  (Lived.create _ ⟨_, rfl, rfl⟩ Directory.ordered_empty rfl).calls (by
    simp [stockCalls, TableCall.Typed, Entry.fits, Entry.type?, keyType, stock, Schema.primaryColumn,
      Column.asPrimary])

/-- The rows with a small number. -/
def lowNumbers : Predicate := .compare ⟨.column "id", .lt, .number (.ofInt .double 100)⟩

/-- The key of one row is not given to the others, and they keep their own. -/
theorem unchanged_of_taken_stock :
    ∃ s', (stock.updateWhere "id" (.number (.ofInt .double 7)) (some lowNumbers) false).run stocked =
        (.error (.duplicateKey (.int 7)), s') ∧ stock.Unchanged stocked s' := by
  obtain ⟨hrefused, hvalue, htaken⟩ :
      ((stock.updateWhere "id" (.number (.ofInt .double 7)) (some lowNumbers) false).run stocked).1 =
        .error (.duplicateKey (.int 7)) ∧
      stock.columnValue "id" (.number (.ofInt .double 7)) = .ok (0, .int 7) ∧
      (stock.contents stocked).contains (.int 7) = true := by decide +kernel
  rcases hrun : (stock.updateWhere "id" (.number (.ofInt .double 7)) (some lowNumbers) false).run stocked
    with ⟨r, s'⟩
  rw [hrun] at hrefused
  obtain rfl : r = .error (.duplicateKey (.int 7)) := hrefused
  refine ⟨s', rfl, (unchanged_iff_not_multiplies lived_stocked hrun).2 ?_⟩
  rintro ⟨key, chosen, hkey, hnew, -⟩
  cases hvalue.symm.trans hkey
  cases htaken.symm.trans hnew

/-- A new key for all rows: the update fails, and the first row has the new key. -/
theorem changed_of_multiplies_stock :
    let outcome := (stock.updateWhere "id" (.number (.ofInt .double 5)) none false).run stocked
    stock.Lived stocked ∧ outcome.1 = .error (.duplicateKey (.int 5)) ∧
      (stock.keys.run stocked).1 = .ok [.int (-3), .int 7] ∧
      (stock.keys.run outcome.2).1 = .ok [.int 5, .int 7] :=
  ⟨lived_stocked, by decide +kernel⟩

end Table

end PageDb
