import PageDb.Proofs.Query.Equijoin
import Mathlib.Data.List.InsertIdx

/-!
What draining a join gives out, in order.

A join iterates all its tables but one that it looks rows up in.  The combinations of their bindings,
in the lexicographic order of the keys, are completed by the row that is looked up and then judged by
the predicates.
-/

namespace PageDb

/-! ## Combinations in lexicographic order -/

/-- All ways to take one member of each list, the last list fastest. -/
def lexProduct {α : Type} : List (List α) → List (List α)
  | [] => [[]]
  | l :: lists => l.flatMap fun a => (lexProduct lists).map (a :: ·)

section LexProduct

variable {α β : Type}

theorem mem_lexProduct_iff {lists : List (List α)} {made : List α} :
    made ∈ lexProduct lists ↔ List.Forall₂ (· ∈ ·) made lists := by
  induction lists generalizing made with
  | nil => simp [lexProduct]
  | cons l lists ih =>
    simp only [lexProduct, List.mem_flatMap, List.mem_map, ih, List.forall₂_cons_right_iff]
    constructor
    · rintro ⟨a, ha, rest, hrest, rfl⟩
      exact ⟨a, rest, ha, hrest, rfl⟩
    · rintro ⟨a, rest, ha, hrest, rfl⟩
      exact ⟨a, ha, rest, hrest, rfl⟩

/-- Members of ascending lists are combined in ascending order. -/
theorem pairwise_lexProduct {lt : α → α → Prop} {lists : List (List α)}
    (h : ∀ l ∈ lists, l.Pairwise lt) : (lexProduct lists).Pairwise (List.Lex lt) := by
  induction lists with
  | nil => exact List.pairwise_singleton _ _
  | cons l lists ih =>
    have hl : l.Pairwise lt := h l (by simp)
    have hrest := ih fun l' hl' => h l' (by simp [hl'])
    rw [lexProduct, List.pairwise_flatMap]
    refine ⟨fun a _ => hrest.map _ fun _ _ hlex => .cons hlex, hl.imp ?_⟩
    intro a b hab x hx y hy
    obtain ⟨x, -, rfl⟩ := List.mem_map.1 hx
    obtain ⟨y, -, rfl⟩ := List.mem_map.1 hy
    exact .rel hab

theorem lexProduct_map (f : α → β) (lists : List (List α)) :
    lexProduct (lists.map (List.map f)) = (lexProduct lists).map (List.map f) := by
  induction lists with
  | nil => rfl
  | cons l lists ih =>
    simp [lexProduct, ih, List.map_flatMap, List.flatMap_map, Function.comp_def]

/-- A list with one member adds that member at its place. -/
theorem lexProduct_insertIdx (a : α) {lists : List (List α)} {i : Nat} (hi : i ≤ lists.length) :
    lexProduct (lists.insertIdx i [a]) = (lexProduct lists).map fun made => made.insertIdx i a := by
  induction i generalizing lists with
  | zero => simp [lexProduct]
  | succ i ih =>
    cases lists with
    | nil => simp at hi
    | cons l lists =>
      rw [List.insertIdx_succ_cons, lexProduct, ih (by simpa using hi)]
      simp [lexProduct, List.map_flatMap, Function.comp_def]

theorem sections_append_singleton (lists : List (List α)) (l : List α) :
    (lists ++ [l]).sections = l.flatMap fun a => lists.sections.map (· ++ [a]) := by
  induction lists with
  | nil => simp [List.sections, List.map_eq_flatMap]
  | cons l' lists ih =>
    simp [List.sections, ih, List.map_flatMap, List.flatMap_assoc, List.flatMap_map,
      Function.comp_def]

/-- Sections are the same combinations with the first list fastest. -/
theorem lexProduct_eq_sections (lists : List (List α)) :
    lexProduct lists = lists.reverse.sections.map List.reverse := by
  induction lists with
  | nil => rfl
  | cons l lists ih =>
    simp [lexProduct, ih, sections_append_singleton, List.map_flatMap, Function.comp_def]

end LexProduct

namespace Join

variable {tables : List Table} {rows : Table → SortedMap Entry Row} {s : Tablespace}
  {on p : Option Predicate} {target source column : Nat}

/-- The tables that a join iterates. -/
def iterated (plan : JoinPlan) (tables : List Table) : List Table :=
  match plan with
  | .lookup target _ _ => tables.eraseIdx target
  | _ => tables

theorem mem_of_mem_iterated {plan : JoinPlan} {t : Table} (h : t ∈ iterated plan tables) :
    t ∈ tables := by
  unfold iterated at h
  split at h
  · exact List.mem_of_mem_eraseIdx h
  · exact h

/-- The combinations of bindings of the tables that a join iterates. -/
def combos (tables : List Table) (rows : Table → SortedMap Entry Row) (plan : JoinPlan) :
    List (List (Entry × Row)) :=
  lexProduct ((iterated plan tables).map fun t => (rows t).toList)

theorem mem_combos_iff {plan : JoinPlan} {combo : List (Entry × Row)} :
    combo ∈ combos tables rows plan ↔
      List.Forall₂ (fun b t => b ∈ (rows t).toList) combo (iterated plan tables) := by
  rw [combos, mem_lexProduct_iff, List.forall₂_map_right_iff]

/-- The combinations come in the lexicographic order of their keys. -/
theorem pairwise_combos (h : Tablespace.Holds tables rows s) (plan : JoinPlan) :
    (combos tables rows plan).Pairwise (List.Lex fun b c => Ord.compare b.1 c.1 = .lt) := by
  refine pairwise_lexProduct fun l hl => ?_
  obtain ⟨t, ht, rfl⟩ := List.mem_map.1 hl
  exact (h.ascending (mem_of_mem_iterated ht)).increasing

/-- A combination of rows of the iterated tables, with the row that its cell finds in the table where
rows are looked up.  Nothing if the key is not there. -/
def complete (tables : List Table) (rows : Table → SortedMap Entry Row) (plan : JoinPlan)
    (chosen : List Row) : Option (List Row) :=
  match plan with
  | .lookup target source column =>
    match chosen[if source < target then source else source - 1]?, tables[target]? with
    | some row, some t =>
      ((rows t).get? ((row.entries[column]?).getD .null)).map fun found =>
        chosen.insertIdx target found
    | _, _ => none
  | _ => some chosen

/-- What is left to check of a join predicate. -/
def remaining (tables : List Table) (on : Option Predicate) : Option Predicate :=
  if planFor tables on = .product then on else some .always

/-- What a join gives out of a combination of bindings: the joined row if the predicates accept it, or
their error. -/
def given (tables : List Table) (rows : Table → SortedMap Entry Row) (on p : Option Predicate)
    (combo : List (Entry × Row)) : Option (Result JointRow) :=
  (complete tables rows (planFor tables on) (combo.map Prod.snd)).bind fun made =>
    verdict (judge (remaining tables on) p) (.ofRows (tables.map Table.heading) made)

/-! ## The lookup target -/

/-- A table that rows are looked up in is there, and is not the one with the keys. -/
theorem lt_of_planFor_lookup (h : planFor tables on = .lookup target source column) :
    target < tables.length ∧ source ≠ target := by
  rcases planFor_cases tables on with hproduct | ⟨left, right, hby⟩
  · rw [hproduct] at h
    cases h
  rw [hby] at h
  rcases planBy_cases tables left right with hproduct | ⟨hne, -, ⟨hmerge, -⟩ | hkeys | hkeys⟩
  · rw [hproduct] at h
    cases h
  · rw [hmerge] at h
    cases h
  · rw [hkeys.1] at h
    cases h
    exact ⟨lt_of_isPrimary hkeys.2, hne.symm⟩
  · rw [hkeys.1] at h
    cases h
    exact ⟨lt_of_isPrimary hkeys.2, hne⟩

theorem walking_of_planFor (hplan : planFor tables on ≠ .merge) :
    Walking tables (remaining tables on) (ofTables tables on) := by
  cases hcase : planFor tables on with
  | product =>
    rw [remaining, if_pos hcase]
    exact walking_of_product hcase
  | lookup target source column =>
    obtain ⟨htarget, hne⟩ := lt_of_planFor_lookup hcase
    rw [remaining, if_neg (by simp [hcase])]
    exact walking_of_lookup hcase htarget hne
  | merge => exact absurd hcase hplan

/-- A gap that is filled in is the completed combination. -/
theorem outcome_insertIdx (htarget : target < tables.length) (hne : source ≠ target)
    {chosen : List Row} (hlength : chosen.length + 1 = tables.length) :
    outcome tables rows (.lookup target source column) ((chosen.map some).insertIdx target none) =
      complete tables rows (.lookup target source column) chosen := by
  have hsource : (((chosen.map some).insertIdx target none)[source]?).join =
      chosen[if source < target then source else source - 1]? := by
    rw [List.getElem?_insertIdx]
    split
    · rw [List.getElem?_map]
      cases chosen[source]? <;> rfl
    · rw [List.getElem?_map]
      cases chosen[source - 1]? <;> rfl
  have hfilled (found : Row) :
      (((chosen.map some).insertIdx target none).set target (some found)).mapM id =
        some (chosen.insertIdx target found) := by
    rw [mapM_id_eq_some_iff, List.map_insertIdx]
    refine List.ext_getElem? fun k => ?_
    rw [List.getElem?_set, List.getElem?_insertIdx, List.getElem?_insertIdx,
      List.length_insertIdx, List.length_map]
    rcases Nat.lt_trichotomy k target with hk | rfl | hk
    · rw [if_neg (by omega), if_pos hk, if_pos hk]
    · simp [show k ≤ chosen.length by omega, show k < chosen.length + 1 by omega]
    · rw [if_neg (by omega), if_neg (by omega), if_neg (by omega), if_neg (by omega),
        if_neg (by omega)]
  simp only [outcome, complete, hsource, hfilled]
  cases chosen[if source < target then source else source - 1]? with
  | none => rfl
  | some row =>
    simp only [List.getElem?_eq_getElem htarget]
    rw [Option.map_eq_bind]
    rfl

/-- What a new join runs through, table by table. -/
theorem shelves_ofTables (rows : Table → SortedMap Entry Row) (hplan : planFor tables on ≠ .merge) :
    (List.range tables.length).map ((ofTables tables on).shelfAt rows) =
      let shelves := (iterated (planFor tables on) tables).map fun t => (rows t).values.map some
      match planFor tables on with
      | .lookup target _ _ => shelves.insertIdx target [none]
      | _ => shelves := by
  have htables : (ofTables tables on).tables = tables := rfl
  refine List.ext_getElem? fun k => ?_
  rw [List.getElem?_map]
  cases hcase : planFor tables on with
  | merge => exact absurd hcase hplan
  | product =>
    simp only [iterated, List.getElem?_map]
    by_cases hk : k < tables.length
    · simp [hk, shelfAt, walk?_of_product hcase, htables]
    · simp [hk]
  | lookup target source column =>
    obtain ⟨htarget, -⟩ := lt_of_planFor_lookup hcase
    simp only [iterated, List.getElem?_insertIdx, List.getElem?_map, List.getElem?_eraseIdx,
      List.length_map, List.length_eraseIdx_of_lt htarget]
    rcases Nat.lt_trichotomy k target with hk | rfl | hk
    · simp [hk, shelfAt, walk?_of_lookup hcase, htables, show k < tables.length by omega,
        show k ≠ target by omega]
    · simp [shelfAt, walk?_of_lookup hcase, htarget, show k ≤ tables.length - 1 by omega]
    · simp only [show ¬ k < target by omega, show ¬ k - 1 < target by omega, show k ≠ target by omega,
        if_false, show k - 1 + 1 = k by omega]
      by_cases hlt : k < tables.length
      · simp [hlt, shelfAt, walk?_of_lookup hcase, htables, show k ≠ target by omega]
      · simp [hlt]

/-- What a new join makes are the combinations in lexicographic order, each of them completed. -/
theorem outcomes_eq (rows : Table → SortedMap Entry Row) (hplan : planFor tables on ≠ .merge) :
    ((ofTables tables on).positions rows tables.length).sections.map (fun shown =>
        outcome tables rows (planFor tables on) shown.reverse) =
      (combos tables rows (planFor tables on)).map fun combo =>
        complete tables rows (planFor tables on) (combo.map Prod.snd) := by
  suffices hcombos : ((combos tables rows (planFor tables on)).map fun combo =>
      complete tables rows (planFor tables on) (combo.map Prod.snd)) =
        (lexProduct ((List.range tables.length).map ((ofTables tables on).shelfAt rows))).map
          (outcome tables rows (planFor tables on)) by
    rw [hcombos, lexProduct_eq_sections, ← positions_eq, List.map_map]
    rfl
  have hshelves : (iterated (planFor tables on) tables).map (fun t => (rows t).values.map some) =
      ((iterated (planFor tables on) tables).map fun t => (rows t).toList).map
        (List.map fun b => some b.2) := by
    simp [SortedMap.values, Function.comp_def]
  rw [shelves_ofTables rows hplan, hshelves, combos]
  cases hcase : planFor tables on with
  | merge => exact absurd hcase hplan
  | product =>
    simp only
    rw [lexProduct_map, List.map_map]
    refine List.map_congr_left fun combo _ => ?_
    simp only [complete, outcome, Function.comp_apply]
    exact (mapM_id_eq_some_iff.2 (by simp)).symm
  | lookup target source column =>
    obtain ⟨htarget, hne⟩ := lt_of_planFor_lookup hcase
    have hplace : target ≤ ((iterated (.lookup target source column) tables).map fun t =>
        (rows t).toList).length := by
      simp only [iterated, List.length_map, List.length_eraseIdx_of_lt htarget]
      omega
    simp only
    rw [lexProduct_insertIdx _ (by rwa [List.length_map]), lexProduct_map, List.map_map, List.map_map]
    refine List.map_congr_left fun combo hcombo => ?_
    have hlength := (mem_lexProduct_iff.1 hcombo).length_eq
    simp only [iterated, List.length_map, List.length_eraseIdx_of_lt htarget] at hlength
    have hchosen : (combo.map Prod.snd).length + 1 = tables.length := by
      rw [List.length_map]
      omega
    have houtcome : outcome tables rows (.lookup target source column) _ = _ :=
      outcome_insertIdx htarget hne hchosen
    rw [List.map_map] at houtcome
    exact houtcome.symm

/-- A new join is due to give out what the predicates make of its combinations. -/
theorem gives_ofTables (h : Tablespace.Holds tables rows s) (hapart : Table.AllApart tables)
    (hplan : planFor tables on ≠ .merge) (p : Option Predicate) :
    Gives tables rows (remaining tables on) p
      ((combos tables rows (planFor tables on)).filterMap (given tables rows on p))
      (ofTables tables on) s := by
  have hwalking := walking_of_planFor hplan
  have hmakes : Makes tables rows (remaining tables on) (ofTables tables on) _ :=
    hwalking.makes_all hapart rfl fun _ _ => table_of_walk? hplan
  refine ⟨_, hwalking.spans h, hmakes, ?_, ?_⟩
  · rw [List.length_map]
    exact length_positions rfl
  · rw [show (ofTables tables on).plan = planFor tables on from rfl, outcomes_eq rows hplan, items,
      joined, List.filterMap_map, List.filterMap_map, List.filterMap_filterMap]
    rfl

end Join

/-- Draining a join that does not merge its walks goes through the combinations of the iterated tables
in the lexicographic order of their keys, and gives out the joined row of each that the predicates
accept and the error of each on which one of them fails.  After that the join is exhausted. -/
theorem Query.drains_ofJoin {tables : List Table} {rows : Table → SortedMap Entry Row}
    {s : Tablespace} (h : Tablespace.Holds tables rows s) (hapart : Table.AllApart tables)
    {on : Option Predicate} (hplan : Join.planFor tables on ≠ .merge) (p : Option Predicate) :
    let start : Query × Tablespace := ((Query.ofJoin tables on).withSelection p, s)
    let combos := Join.combos tables rows (Join.planFor tables on)
    let items := combos.filterMap (Join.given tables rows on p)
    Moving.Drains Query.next tables rows start items ∧
      (∀ combo, combo ∈ combos ↔ List.Forall₂ (fun b t => b ∈ (rows t).toList) combo
        (Join.iterated (Join.planFor tables on) tables)) ∧
      combos.Pairwise (List.Lex fun b c => Ord.compare b.1 c.1 = .lt) ∧
      ∀ works : List (Tablespace → Tablespace),
        (∀ work ∈ works, Tablespace.Spares tables rows work) → items.length ≤ works.length →
          ∃ j, (Query.next.run (Moving.reached Query.next works start)).2.1.source = .join j ∧
            j.exhausted = true := by
  intro start combos items
  have hdue : Due tables rows (Join.remaining tables on) p items start :=
    .idle (Join.gives_ofTables h hapart hplan p)
  have hwork (work : Tablespace → Tablespace) (hspares : Tablespace.Spares tables rows work)
      (due : List (Result JointRow)) (q : Query) (s : Tablespace)
      (hq : Due tables rows (Join.remaining tables on) p due (q, s)) :
      Due tables rows (Join.remaining tables on) p due (q, work s) := hq.spared hspares
  refine ⟨Moving.drains_of_call (fun due now hnow => ?_) hwork hdue, fun combo => ?_, ?_,
    fun works hworks hlength => ?_⟩
  · exact ⟨hnow.next_run.1, hnow.next_run.2.1⟩
  · rw [Join.mem_combos_iff]
  · exact Join.pairwise_combos h _
  · have hreached := Moving.reached_induction (fun due now hnow => hnow.next_run.2.1) hwork hworks hdue
    exact hreached.next_run.2.2 (List.drop_eq_nil_of_le hlength)

/-- A table whose rows refer to the keys of another one. -/
def referring : Table where
  number := 1
  database := "db"
  name := "u"
  schema :=
    ⟨[({ name := "x", type := .int } : Column).asPrimary, { name := "r", type := .int }], 0⟩

/-- The two tables with some rows, one of which refers to nothing. -/
def referringSpace : Tablespace :=
  Table.runAll
    [(referring, .insertLiterals none ["3", "5"] false),
      (referring, .insertLiterals none ["1", "5"] false),
      (referring, .insertLiterals none ["2", "7"] false),
      (keyTable 2 "v" "y" .int, .insertLiterals none ["5"] false)]
    ([referring, keyTable 2 "v" "y" .int].foldr (fun t s => s.create {} t) {})

theorem orderly_referring :
    Tablespace.Orderly [referring, keyTable 2 "v" "y" .int] referringSpace := by
  have hstem : PageFile.tableStem "db" "u" ≠ PageFile.tableStem "db" "v" := by decide
  have hapart : referring.Apart (keyTable 2 "v" "y" .int) := ⟨show 1 ≠ 2 by decide, hstem⟩
  have hnew := orderly_pair (t := referring) (u := keyTable 2 "v" "y" .int) ⟨_, rfl, rfl⟩
    ⟨_, rfl, rfl⟩ hapart
  exact hnew.runAll (by simp [TableCall.Typed])

/-- The key that is looked up is found for two of the three rows. -/
theorem Query.drains_ofJoin_referring :
    ∃ items, Moving.Drains Query.next [referring, keyTable 2 "v" "y" .int]
        (fun t => t.contents referringSpace)
        ((Query.ofJoin [referring, keyTable 2 "v" "y" .int]
          (some (.equates "r" "y"))).withSelection none, referringSpace) items ∧
      items.map (Except.map JointRow.entries) =
        [.ok [.int 1, .int 5, .int 5], .ok [.int 3, .int 5, .int 5]] :=
  ⟨_, (Query.drains_ofJoin orderly_referring.holds orderly_referring.apart (by decide) none).1,
    by decide +kernel⟩

end PageDb
