import PageDb.Proofs.Query.Cells
import PageDb.Proofs.Query.Pairing

/-!
What new joins deliver.

Whatever the plan of a join is, the combinations it makes are the choices of rows that pass a test:
every choice, those whose key finds their row, or those whose keys find each other.
-/

namespace PageDb

namespace Join

variable {tables : List Table} {s : Tablespace} {t u : Table}

theorem walk?_of_product {p : Option Predicate} (hplan : planFor tables p = .product) (k : Nat) :
    (ofTables tables p).walk? k = (tables[k]?).map Table.walk := by
  simp only [walk?, ofTables, hplan, List.getElem?_map]
  cases tables[k]? <;> rfl

theorem walk?_of_lookup {p : Option Predicate} {target source column : Nat}
    (hplan : planFor tables p = .lookup target source column) (k : Nat) :
    (ofTables tables p).walk? k = if k = target then none else (tables[k]?).map Table.walk := by
  simp only [walk?, ofTables, hplan]
  by_cases heq : k = target
  · subst heq
    rw [if_pos rfl, List.getElem?_set]
    by_cases hk : k < tables.length <;> simp [hk]
  · rw [if_neg heq, List.getElem?_set_ne (Ne.symm heq), List.getElem?_map]
    cases tables[k]? <;> rfl

/-- The walks of a new join are new. -/
theorem table_of_walk? {p : Option Predicate} (hplan : planFor tables p ≠ .merge) {k : Nat}
    {walk : Walk} (hwalk : (ofTables tables p).walk? k = some walk) :
    ∃ t, (ofTables tables p).tables[k]? = some t ∧ walk = t.walk := by
  have hfound (hat : (tables[k]?).map Table.walk = some walk) :
      ∃ t, (ofTables tables p).tables[k]? = some t ∧ walk = t.walk := by
    obtain ⟨t, ht, rfl⟩ := Option.map_eq_some_iff.1 hat
    exact ⟨t, ht, rfl⟩
  cases hcase : planFor tables p with
  | product =>
    rw [walk?_of_product hcase] at hwalk
    exact hfound hwalk
  | lookup target source column =>
    rw [walk?_of_lookup hcase] at hwalk
    split at hwalk
    · cases hwalk
    · exact hfound hwalk
  | merge => exact absurd hcase hplan

/-- A new join that walks tables is between two steps. -/
theorem walking_ofTables {p : Option Predicate} (hplan : planFor tables p ≠ .merge)
    (hwalks : Walks tables (ofTables tables p)) :
    Walking tables (ofTables tables p).condition (ofTables tables p) := by
  refine ⟨rfl, rfl, hwalks, ?_, rfl⟩
  simp only [ofTables]
  split
  · contradiction
  · rfl

theorem walking_of_product {p : Option Predicate} (hplan : planFor tables p = .product) :
    Walking tables p (ofTables tables p) := by
  have hwalks : Walks tables (ofTables tables p) := by
    refine ⟨by simp [ofTables], ?_⟩
    rw [show (ofTables tables p).plan = .product from hplan]
    intro k hk
    rw [walk?_of_product hplan, List.getElem?_eq_getElem hk]
    rfl
  have hcondition : (ofTables tables p).condition = p := by simp [ofTables, hplan]
  have hwalking := walking_ofTables (by simp [hplan]) hwalks
  rwa [hcondition] at hwalking

theorem walking_of_lookup {p : Option Predicate} {target source column : Nat}
    (hplan : planFor tables p = .lookup target source column)
    (htarget : target < tables.length) (hne : source ≠ target) :
    Walking tables (some .always) (ofTables tables p) := by
  have hwalks : Walks tables (ofTables tables p) := by
    refine ⟨by simp [ofTables], ?_⟩
    rw [show (ofTables tables p).plan = .lookup target source column from hplan]
    refine ⟨htarget, hne, fun k hk => ?_⟩
    rw [walk?_of_lookup hplan, List.getElem?_eq_getElem hk]
    by_cases heq : k = target <;> simp [heq]
  have hcondition : (ofTables tables p).condition = some .always := by simp [ofTables, hplan]
  have hwalking := walking_ofTables (by simp [hplan]) hwalks
  rwa [hcondition] at hwalking

/-- A join that walks all its tables delivers every choice. -/
theorem delivers_of_product (h : Tablespace.Orderly tables s) {p : Option Predicate}
    (hplan : planFor tables p = .product) :
    Delivers tables (fun t => t.contents s) p (ofTables tables p) s fun _ => True :=
  (walking_of_product hplan).delivers_choices h.apart h.holds rfl
    (fun _ _ => table_of_walk? (by simp [hplan])) hplan fun _ => h.holds.nodup_values

/-- A join that looks rows up delivers the choices that find them. -/
theorem delivers_of_lookup (h : Tablespace.Orderly tables s) {p : Option Predicate}
    {target source column : Nat} (hplan : planFor tables p = .lookup target source column)
    (htarget : target < tables.length) (hne : source ≠ target) :
    Delivers tables (fun t => t.contents s) (some .always) (ofTables tables p) s
      (Finds tables (fun t => t.contents s) target source column) :=
  (walking_of_lookup hplan htarget hne).delivers_found h.apart h.holds rfl
    (fun _ _ => table_of_walk? (by simp [hplan])) hplan fun _ => h.holds.nodup_values

/-- A binding finds one of another table if the key of its row does. -/
theorem find?_eq_iff (h : Tablespace.Orderly tables s) (ht : t ∈ tables) (hu : u ∈ tables)
    {b c : Entry × Row} (hb : b ∈ (t.contents s).toList) (hc : c ∈ (u.contents s).toList) :
    SortedMap.find? b.1 (u.contents s).toList = some c ↔
      (u.contents s).get? (b.2.keyAt t.primaryIndex) = some c.2 := by
  have hfits := (h.holds.ascending ht).holds b hb
  have hget : (t.contents s).get? b.1 = some b.2 :=
    SortedMap.get?_of_mem (Entry.orderedOn_fits _) (h.holds.ascending ht) hb
  obtain ⟨hkeyed, hsame⟩ := h.holds.keyed ht hfits hget
  -- the key of the row compares like the key of the binding
  have halike : SortedMap.find? (b.2.keyAt t.primaryIndex) (u.contents s).toList =
      SortedMap.find? b.1 (u.contents s).toList := by
    refine SortedMap.find?_congr fun x hx => ?_
    have hx := (h.holds.ascending hu).holds x hx
    rw [Entry.compare_eq_meeting hkeyed.fits hx, Entry.compare_eq_meeting hfits hx,
      Entry.meeting_congr u.keyType hkeyed.fits hfits (Entry.same_iff.1 hsame)]
  rw [SortedMap.get?, halike]
  constructor
  · intro hfind
    rw [hfind]
    rfl
  · intro hfind
    obtain ⟨x, hx, hrow⟩ := Option.map_eq_some_iff.1 hfind
    have hmem := (SortedMap.mem_of_find? hx).1
    rw [hx, List.inj_on_of_nodup_map (h.holds.nodup_values hu) hmem hc hrow]

theorem bound_pair (rows : Table → SortedMap Entry Row) (t u : Table) :
    bound [t, u] rows = ((rows t).size + 1) * ((rows u).size + 1) + 1 := by
  simp only [bound, List.map_cons, List.map_nil, List.foldl_cons, List.foldl_nil, Nat.one_mul]

/-- The pairs of a merge as combinations. -/
theorem filterMap_pairs (pairs : List ((Entry × Row) × (Entry × Row))) :
    (pairs.map fun pair => some [pair.1.2, pair.2.2]).filterMap id =
      pairs.map fun pair => [pair.1.2, pair.2.2] := by
  rw [List.filterMap_map]
  exact congrFun List.filterMap_eq_map _

/-- Pairs whose first rows are different are different combinations. -/
theorem nodup_pairs {pairs : List ((Entry × Row) × (Entry × Row))} {bindings : List (Entry × Row)}
    (hsublist : (pairs.map Prod.fst).Sublist bindings) (hnodup : (bindings.map Prod.snd).Nodup) :
    (pairs.map fun pair => [pair.1.2, pair.2.2]).Nodup := by
  have hfirsts : (pairs.map fun pair => pair.1.2).Nodup := by
    have hvalues := hsublist.map Prod.snd
    rw [List.map_map] at hvalues
    exact hvalues.nodup hnodup
  refine List.Nodup.of_map (f := List.head?) ?_
  rw [List.map_map]
  have hheads := hfirsts.map (Option.some_injective _)
  rwa [List.map_map] at hheads

/-- A new join that merges two walks makes the pairs that the walks meet. -/
theorem makes_of_merge {rows : Table → SortedMap Entry Row} (hapart : Table.AllApart [t, u])
    {p : Option Predicate} (hplan : planFor [t, u] p = .merge) :
    Makes [t, u] rows (some .always) (ofTables [t, u] p)
      ((Merge.pairUp (rows t).toList (rows u).toList).map fun pair => some [pair.1.2, pair.2.2]) :=
  makes_merge (m := ⟨t.walk, u.walk⟩) hapart rfl (by simp [ofTables, hplan]) rfl
    ⟨rfl, rfl, Walk.ahead_walk t _, Walk.ahead_walk u _⟩

theorem over_of_merge {rows : Table → SortedMap Entry Row} (h : Tablespace.Holds [t, u] rows s)
    {p : Option Predicate} (hplan : planFor [t, u] p = .merge) :
    Over [t, u] rows (some .always) (ofTables [t, u] p) s :=
  ⟨rfl, by simp [ofTables, hplan], h⟩

/-- Walks in step meet no more pairs than one of them has rows. -/
theorem length_pairs_lt_bound (rows : Table → SortedMap Entry Row) (t u : Table) :
    (Merge.pairUp (rows t).toList (rows u).toList).length < bound [t, u] rows := by
  have hlength := (Merge.pairUp_sublist (rows t).toList (rows u).toList).length_le
  rw [List.length_map] at hlength
  rw [bound_pair]
  exact Nat.lt_succ_of_le (Nat.le_trans (Nat.le_succ_of_le hlength)
    (Nat.le_mul_of_pos_right _ (Nat.succ_pos _)))

/-- A join that merges two walks delivers the pairs of rows whose keys find each other. -/
theorem delivers_of_merge (h : Tablespace.Orderly [t, u] s) {p : Option Predicate}
    (hplan : planFor [t, u] p = .merge) :
    Delivers [t, u] (fun t => t.contents s) (some .always) (ofTables [t, u] p) s fun made =>
      ∃ row row', made = [row, row'] ∧
        (t.contents s).get? (row'.keyAt u.primaryIndex) = some row ∧
        (u.contents s).get? (row.keyAt t.primaryIndex) = some row' := by
  have ht : t ∈ [t, u] := by simp
  have hu : u ∈ [t, u] := by simp
  have hsublist := Merge.pairUp_sublist (t.contents s).toList (u.contents s).toList
  refine ⟨over_of_merge h.holds hplan, _, makes_of_merge h.apart hplan, ?_, ?_, fun made => ?_⟩
  · rw [List.length_map]
    exact length_pairs_lt_bound (fun t => t.contents s) t u
  · rw [filterMap_pairs]
    exact nodup_pairs hsublist (h.holds.nodup_values ht)
  · rw [filterMap_pairs, List.mem_map]
    constructor
    · rintro ⟨⟨b, c⟩, hpair, rfl⟩
      have hmutual := (Merge.mem_pairUp (h.holds.ascending ht) (h.holds.ascending hu)).1 hpair
      obtain ⟨hb, hc⟩ := hmutual.mem
      refine ⟨mem_choices_iff.2 (.cons (List.mem_map_of_mem hb) (.cons (List.mem_map_of_mem hc) .nil)),
        b.2, c.2, rfl, ?_, ?_⟩
      · exact (find?_eq_iff h hu ht hc hb).1 hmutual.2
      · exact (find?_eq_iff h ht hu hb hc).1 hmutual.1
    · rintro ⟨hmem, row, row', rfl, hrow, hrow'⟩
      obtain ⟨b, hb, rfl⟩ := List.mem_map.1 (mem_values_of_get? hrow)
      obtain ⟨c, hc, rfl⟩ := List.mem_map.1 (mem_values_of_get? hrow')
      refine ⟨(b, c), ?_, rfl⟩
      rw [Merge.mem_pairUp (h.holds.ascending ht) (h.holds.ascending hu)]
      exact ⟨(find?_eq_iff h ht hu hb hc).2 hrow', (find?_eq_iff h hu ht hc hb).2 hrow⟩

end Join

end PageDb
