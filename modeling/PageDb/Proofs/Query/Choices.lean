import PageDb.Proofs.Query.Combinations
import PageDb.Proofs.Table.Fitting
import Mathlib.Data.List.Nodup
import Mathlib.Algebra.Order.BigOperators.Group.List
import Mathlib.Algebra.Order.Ring.Nat

/-!
The choices of one row from each of a list of tables.

A join of all combinations makes every choice once.  A join that looks one table up makes the
choices whose row of that table is the one its key finds.
-/

namespace PageDb

/-- Lists without repeated members have no repeated section. -/
theorem nodup_sections {α : Type} {lists : List (List α)} (h : ∀ l ∈ lists, l.Nodup) :
    lists.sections.Nodup := by
  induction lists with
  | nil => simp [List.sections]
  | cons l lists ih =>
    have hl : l.Nodup := h l (by simp)
    have hrest := ih fun l' hl' => h l' (by simp [hl'])
    rw [List.sections, List.nodup_flatMap]
    refine ⟨fun f _ => hl.map fun a b heq => (List.cons.inj heq).1, hrest.imp ?_⟩
    intro f g hne c hf hg
    obtain ⟨a, -, rfl⟩ := List.mem_map.1 hf
    obtain ⟨b, -, heq⟩ := List.mem_map.1 hg
    exact hne (List.cons.inj heq).2.symm

theorem length_sections {α : Type} (lists : List (List α)) :
    lists.sections.length = (lists.map List.length).prod := by
  induction lists with
  | nil => rfl
  | cons l lists ih => simp [List.sections, List.length_flatMap, ih, Nat.mul_comm]

theorem sections_map {α β : Type} (f : α → β) (lists : List (List α)) :
    (lists.map (List.map f)).sections = lists.sections.map (List.map f) := by
  induction lists with
  | nil => rfl
  | cons l lists ih =>
    simp [List.sections, ih, List.map_flatMap, List.flatMap_map, Function.comp_def]

/-- A list all of whose members are there. -/
theorem mapM_id_eq_some_iff {α : Type} {l : List (Option α)} {made : List α} :
    l.mapM id = some made ↔ l = made.map some := by
  induction l generalizing made with
  | nil => cases made <;> simp
  | cons a l ih =>
    cases a with
    | none => cases made <;> simp
    | some a =>
      cases made with
      | nil => cases h : l.mapM id <;> simp [h]
      | cons b made =>
        rw [List.mapM_cons]
        simp only [id, Option.bind_eq_bind, Option.bind_some, Option.bind_eq_some_iff, ih,
          Option.pure_def, Option.some.injEq, List.map_cons, List.cons.injEq]
        constructor
        · rintro ⟨_, hl, hab, rfl⟩
          exact ⟨hab, hl⟩
        · rintro ⟨hab, hl⟩
          exact ⟨made, hl, hab, rfl⟩

namespace Join

/-- All ways to take one row of each table, the last table fastest. -/
def choices (tables : List Table) (rows : Table → SortedMap Entry Row) : List (List Row) :=
  ((tables.map fun t => (rows t).values).reverse.sections).map List.reverse

variable {tables : List Table} {rows : Table → SortedMap Entry Row} {condition : Option Predicate}
  {j : Join} {s : Tablespace} {made : List Row}

theorem mem_choices_iff : made ∈ choices tables rows ↔
    List.Forall₂ (fun row t => row ∈ (rows t).values) made tables := by
  rw [← List.forall₂_map_right_iff (f := fun t => (rows t).values) (R := (· ∈ ·)), choices,
    List.mem_map]
  constructor
  · rintro ⟨f, hf, rfl⟩
    rw [← List.forall₂_reverse_iff, List.reverse_reverse]
    exact List.mem_sections.1 hf
  · intro h
    refine ⟨made.reverse, List.mem_sections.2 (List.forall₂_reverse_iff.2 h), ?_⟩
    rw [List.reverse_reverse]

theorem nodup_choices (h : ∀ t ∈ tables, (rows t).values.Nodup) : (choices tables rows).Nodup := by
  refine List.Nodup.map List.reverse_injective (nodup_sections fun l hl => ?_)
  obtain ⟨t, ht, rfl⟩ := List.mem_map.1 (List.mem_reverse.1 hl)
  exact h t ht

/-! ## What the positions of a join run through -/

/-- What a join runs through at a place. -/
def shelfAt (rows : Table → SortedMap Entry Row) (j : Join) (k : Nat) : List (Option Row) :=
  match j.walk? k, j.tables[k]? with
  | some _, some t => (rows t).values.map some
  | _, _ => [none]

theorem positions_eq (rows : Table → SortedMap Entry Row) (j : Join) (i : Nat) :
    j.positions rows i = ((List.range i).map (j.shelfAt rows)).reverse := by
  induction i with
  | zero => rfl
  | succ i ih =>
    rw [List.range_succ, List.map_append, List.reverse_append, ← ih]
    rfl

/-- A join makes no more combinations than there may be. -/
theorem length_positions (h : j.tables = tables) :
    (j.positions rows tables.length).sections.length < bound tables rows := by
  rw [length_sections, positions_eq, List.map_reverse, List.prod_reverse, bound,
    ← List.prod_eq_foldl, Nat.lt_succ_iff]
  refine List.Forall₂.prod_le_prod' (forall₂_iff_getElem?.2 ⟨by simp, fun k a b ha hb => ?_⟩)
  obtain ⟨t, ht, rfl⟩ : ∃ t, tables[k]? = some t ∧ (rows t).size + 1 = b := by simpa using hb
  obtain ⟨i, hi, rfl⟩ : ∃ i, (List.range tables.length)[k]? = some i ∧
      (j.shelfAt rows i).length = a := by simpa using ha
  obtain rfl : k = i := by simpa [List.getElem?_range (List.getElem?_eq_some_iff.1 ht).1] using hi
  rw [shelfAt, h, ht]
  cases j.walk? k with
  | none => simp
  | some walk => simp [SortedMap.values, SortedMap.size]

theorem nodup_positions (htables : j.tables = tables)
    (hnodup : ∀ t ∈ tables, (rows t).values.Nodup) (i : Nat) :
    (j.positions rows i).sections.Nodup := by
  refine nodup_sections fun l hl => ?_
  rw [positions_eq, List.mem_reverse, List.mem_map] at hl
  obtain ⟨k, -, rfl⟩ := hl
  unfold shelfAt
  split
  · rename_i ht
    exact (hnodup _ (htables ▸ List.mem_of_getElem? ht)).map (Option.some_injective _)
  · exact List.nodup_singleton none

/-- A join that walks all its tables shows the choices. -/
theorem Walks.choices_eq (h : Walks tables j) (htables : j.tables = tables)
    (hplan : j.plan = .product) :
    (choices tables rows).map some = (j.positions rows tables.length).sections.map fun shown =>
      outcome tables rows j.plan shown.reverse := by
  have hwalks := h.2
  simp only [hplan] at hwalks
  have hall : (List.range tables.length).map (j.shelfAt rows) =
      (tables.map fun t => (rows t).values).map (List.map some) := by
    refine List.ext_getElem? fun k => ?_
    by_cases hk : k < tables.length
    · have htable : j.tables[k]? = some tables[k] := by
        rw [htables, List.getElem?_eq_getElem hk]
      obtain ⟨walk, hwalk⟩ := Option.isSome_iff_exists.1 (hwalks k hk)
      simp [shelfAt, hk, htable, hwalk]
    · simp [hk]
  rw [positions_eq, hall, ← List.map_reverse, sections_map, List.map_map, choices, List.map_map]
  refine List.map_congr_left fun shown _ => ?_
  simp only [Function.comp_def, outcome, hplan]
  exact (mapM_id_eq_some_iff.2 (by rw [List.map_reverse])).symm

/-! ## Looking a table up -/

/-- A combination of walked rows, with nothing where the table is looked up. -/
def Partial (tables : List Table) (rows : Table → SortedMap Entry Row) (target : Nat)
    (shown : List (Option Row)) : Prop :=
  shown.length = tables.length ∧ ∀ (k : Nat) a t, shown[k]? = some a → tables[k]? = some t →
    if k = target then a = none else ∃ row ∈ (rows t).values, a = some row

/-- A choice whose row of one table is the one that a column of another table finds. -/
def Finds (tables : List Table) (rows : Table → SortedMap Entry Row) (target source column : Nat)
    (made : List Row) : Prop :=
  ∃ t row found, tables[target]? = some t ∧ made[source]? = some row ∧
    made[target]? = some found ∧ (rows t).get? ((row.entries[column]?).getD .null) = some found

variable {target source column : Nat}

/-- A join that looks one table up shows partial combinations. -/
theorem Walks.mem_positions (h : Walks tables j) (htables : j.tables = tables)
    (hplan : j.plan = .lookup target source column) {shown : List (Option Row)} :
    shown ∈ (j.positions rows tables.length).sections ↔ Partial tables rows target shown.reverse := by
  have hwalked := h.2
  simp only [hplan] at hwalked
  obtain ⟨-, -, hwalked⟩ := hwalked
  rw [positions_eq, List.mem_sections, ← List.forall₂_reverse_iff, List.reverse_reverse,
    forall₂_iff_getElem?, Partial]
  refine and_congr (by simp) ?_
  have hat {k : Nat} {t : Table} (ht : tables[k]? = some t) (a : Option Row) :
      a ∈ j.shelfAt rows k ↔ if k = target then a = none else ∃ row ∈ (rows t).values, a = some row := by
    have hk : k < tables.length := (List.getElem?_eq_some_iff.1 ht).1
    rw [shelfAt, htables, ht]
    by_cases heq : k = target
    · have hnone : j.walk? k = none := by
        rw [← Option.not_isSome_iff_eq_none, hwalked k hk]
        simpa using heq
      simp only [hnone]
      simp [heq]
    · obtain ⟨walk, hwalk⟩ := Option.isSome_iff_exists.1 ((hwalked k hk).2 heq)
      simp [hwalk, heq, eq_comm]
  constructor
  · intro hall k a t ha ht
    have hk : k < tables.length := (List.getElem?_eq_some_iff.1 ht).1
    exact (hat ht a).1 (hall k a _ ha (by simp [hk]))
  · intro hall k a b ha hb
    obtain ⟨hk, rfl⟩ : k < tables.length ∧ j.shelfAt rows k = b := by
      simpa [List.getElem?_map, List.getElem?_eq_some_iff] using hb
    have ht := List.getElem?_eq_getElem hk
    exact (hat ht a).2 (hall k a _ ha ht)

/-- A choice without the row of one table is a partial combination. -/
theorem partial_of_mem_choices (h : made ∈ choices tables rows) (target : Nat) :
    Partial tables rows target ((made.map some).set target none) := by
  obtain ⟨hlength, hmem⟩ := forall₂_iff_getElem?.1 (mem_choices_iff.1 h)
  refine ⟨by simpa using hlength, fun k a t ha ht => ?_⟩
  by_cases heq : k = target
  · subst heq
    have hk := (List.getElem?_eq_some_iff.1 ha).1
    rw [List.getElem?_set_self (by simpa using hk)] at ha
    simpa using ha.symm
  · rw [List.getElem?_set_ne (Ne.symm heq), List.getElem?_map, Option.map_eq_some_iff] at ha
    obtain ⟨row, hrow, rfl⟩ := ha
    simpa [heq] using hmem k row t hrow ht

/-- A row that is found is one of the rows. -/
theorem mem_values_of_get? {m : SortedMap Entry Row} {key : Entry} {row : Row}
    (h : m.get? key = some row) : row ∈ m.values := by
  obtain ⟨b, hb, rfl⟩ := Option.map_eq_some_iff.1 h
  exact List.mem_map_of_mem (SortedMap.mem_of_find? hb).1

/-- A partial combination with the missing row filled in. -/
theorem Partial.of_filled {shown : List (Option Row)} (h : Partial tables rows target shown)
    (htarget : target < tables.length) {t : Table} (ht : tables[target]? = some t) {found : Row}
    (hfound : found ∈ (rows t).values) (hmade : shown.set target (some found) = made.map some) :
    shown = (made.map some).set target none ∧ made ∈ choices tables rows ∧
      made[target]? = some found := by
  have hlt : target < shown.length := by rw [h.1]; exact htarget
  have hat (k : Nat) : made[k]?.map some = if k = target then some (some found) else shown[k]? := by
    rw [← List.getElem?_map, ← hmade, List.getElem?_set]
    by_cases heq : target = k
    · subst heq
      simp [hlt]
    · simp [heq, Ne.symm heq]
  have hat_target : made[target]? = some found := by simpa using hat target
  refine ⟨?_, ?_, hat_target⟩
  · rw [← hmade, List.set_set]
    have hnone : shown[target] = none := by
      simpa using h.2 target _ t (List.getElem?_eq_getElem hlt) ht
    rw [← hnone, List.set_getElem_self]
  · refine mem_choices_iff.2 (forall₂_iff_getElem?.2 ⟨?_, fun k row t' hrow ht' => ?_⟩)
    · have hlength := congrArg List.length hmade
      rw [List.length_set, List.length_map, h.1] at hlength
      exact hlength.symm
    · by_cases heq : k = target
      · subst heq
        rw [hat_target] at hrow
        rw [ht] at ht'
        cases hrow
        cases ht'
        exact hfound
      · have hk := hat k
        rw [hrow, if_neg heq] at hk
        have hshown := h.2 k _ t' hk.symm ht'
        rw [if_neg heq] at hshown
        obtain ⟨row', hrow', hsame⟩ := hshown
        cases hsame
        exact hrow'

/-- What is made of a partial combination is a choice that finds its row. -/
theorem outcome_eq_some_iff {shown : List (Option Row)} (h : Partial tables rows target shown)
    (hne : source ≠ target) (htarget : target < tables.length) :
    outcome tables rows (.lookup target source column) shown = some made ↔
      shown = (made.map some).set target none ∧ made ∈ choices tables rows ∧
        Finds tables rows target source column made := by
  constructor
  · intro hmade
    simp only [outcome] at hmade
    split at hmade
    · rename_i row t hrow ht
      obtain ⟨found, hfound, hmade⟩ := Option.bind_eq_some_iff.1 hmade
      have hfilled := mapM_id_eq_some_iff.1 hmade
      obtain ⟨hshown, hmem, hat⟩ := h.of_filled htarget ht (mem_values_of_get? hfound) hfilled
      refine ⟨hshown, hmem, t, row, found, ht, ?_, hat, hfound⟩
      rw [hshown, List.getElem?_set_ne (Ne.symm hne), List.getElem?_map] at hrow
      simpa [Option.join_eq_some_iff] using hrow
    · cases hmade
  · rintro ⟨rfl, hmem, t, row, found, ht, hrow, hat, hfound⟩
    have hlt := (List.getElem?_eq_some_iff.1 hat).1
    have hsource : (((made.map some).set target none)[source]?).join = some row := by
      rw [List.getElem?_set_ne (Ne.symm hne), List.getElem?_map, hrow]
      rfl
    simp only [outcome, hsource, ht]
    rw [hfound, Option.bind_some, mapM_id_eq_some_iff, List.set_set]
    have hlt' : target < (made.map some).length := by rwa [List.length_map]
    have hself : (made.map some)[target] = some found := by
      simpa using (List.getElem?_eq_some_iff.1 hat).2
    rw [← hself, List.set_getElem_self]

/-- The combinations that a join makes are the choices that pass a test, in any order. -/
def Delivers (tables : List Table) (rows : Table → SortedMap Entry Row)
    (condition : Option Predicate) (j : Join) (s : Tablespace) (hits : List Row → Prop) : Prop :=
  Over tables rows condition j s ∧ ∃ later, Makes tables rows condition j later ∧
    later.length < bound tables rows ∧ (later.filterMap id).Nodup ∧
    ∀ made, made ∈ later.filterMap id ↔ made ∈ choices tables rows ∧ hits made

theorem Delivers.congr {hits hits' : List Row → Prop} (h : Delivers tables rows condition j s hits)
    (hiff : ∀ made ∈ choices tables rows, hits made ↔ hits' made) :
    Delivers tables rows condition j s hits' := by
  obtain ⟨hover, later, hmakes, hlength, hnodup, hmem⟩ := h
  refine ⟨hover, later, hmakes, hlength, hnodup, fun made => ?_⟩
  rw [hmem]
  exact and_congr_right (hiff made)

/-- A new join that walks all its tables delivers every choice. -/
theorem Walking.delivers_choices (hapart : Table.AllApart tables)
    (h : Walking tables condition j) (hholds : Tablespace.Holds tables rows s) (hseeded : j.seeded = false)
    (hnew : ∀ k walk, j.walk? k = some walk → ∃ t, j.tables[k]? = some t ∧ walk = t.walk)
    (hplan : j.plan = .product) (hnodup : ∀ t ∈ tables, (rows t).values.Nodup) :
    Delivers tables rows condition j s fun _ => True := by
  refine ⟨h.spans hholds, _, h.makes_all hapart hseeded hnew, ?_, ?_, ?_⟩
  · rw [List.length_map]
    exact length_positions h.tables_eq
  · rw [← h.walks.choices_eq h.tables_eq hplan]
    simpa using nodup_choices hnodup
  · rw [← h.walks.choices_eq h.tables_eq hplan]
    simp

/-- A new join that looks one table up delivers the choices that find their rows. -/
theorem Walking.delivers_found (hapart : Table.AllApart tables)
    (h : Walking tables condition j) (hholds : Tablespace.Holds tables rows s) (hseeded : j.seeded = false)
    (hnew : ∀ k walk, j.walk? k = some walk → ∃ t, j.tables[k]? = some t ∧ walk = t.walk)
    (hplan : j.plan = .lookup target source column)
    (hnodup : ∀ t ∈ tables, (rows t).values.Nodup) :
    Delivers tables rows condition j s (Finds tables rows target source column) := by
  have hwalks := h.walks.2
  simp only [hplan] at hwalks
  obtain ⟨htarget, hne, -⟩ := hwalks
  have hshown (shown : List (Option Row)) :
      shown ∈ (j.positions rows tables.length).sections ↔ Partial tables rows target shown.reverse :=
    h.walks.mem_positions h.tables_eq hplan
  refine ⟨h.spans hholds, _, h.makes_all hapart hseeded hnew, ?_, ?_, fun made => ?_⟩
  · rw [List.length_map]
    exact length_positions h.tables_eq
  · -- a partial combination can be read off from what is made of it
    rw [List.filterMap_map, hplan, List.Nodup, List.pairwise_filterMap]
    refine (nodup_positions h.tables_eq hnodup tables.length).imp_of_mem ?_
    rintro shown shown' hmem hmem' hdistinct made hmade made' hmade' rfl
    have heq := ((outcome_eq_some_iff ((hshown shown).1 hmem) hne htarget).1 hmade).1
    have heq' := ((outcome_eq_some_iff ((hshown shown').1 hmem') hne htarget).1 hmade').1
    exact hdistinct (List.reverse_injective (heq.trans heq'.symm))
  · rw [List.filterMap_map, List.mem_filterMap, hplan]
    constructor
    · rintro ⟨shown, hmem, hmade⟩
      exact ((outcome_eq_some_iff ((hshown shown).1 hmem) hne htarget).1 hmade).2
    · rintro ⟨hmade, hfinds⟩
      have hpartial := partial_of_mem_choices hmade target
      refine ⟨((made.map some).set target none).reverse, ?_, ?_⟩
      · rw [hshown, List.reverse_reverse]
        exact hpartial
      · simp only [Function.comp_def, id, List.reverse_reverse]
        exact (outcome_eq_some_iff hpartial hne htarget).2 ⟨rfl, hmade, hfinds⟩

end Join

end PageDb
