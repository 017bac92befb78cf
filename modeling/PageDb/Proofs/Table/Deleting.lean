import PageDb.Proofs.Table.Selecting

/-!
Removing all rows that a filter accepts.

The rows are found before the first one is removed, so that a filter that cannot judge one of them
leaves all of them where they are.  After that no row is in the way of another, and none is missing.
-/

namespace PageDb

namespace Table

namespace Steady

variable {t : Table} {I : Tablespace → Prop} {s : Tablespace} {filter : Option Predicate}
  {keys : List Entry} {key : Entry} {row : Row} {found : List Row} {e : Error} (hI : t.Steady I)
  (h : I s)

include hI h

/-- A row that is there is removed, and the others stay. -/
theorem delete_run (hrow : (key, row) ∈ (t.contents s).toList) (pin : Bool) :
    ∃ s', (t.delete key pin).run s = (.ok (), s') ∧ I s' ∧
      (t.contents s').toList = (t.contents s).toList.filter fun b => decide (b.1 ≠ key) := by
  have hstands := hI.stands h
  have hkey := hstands.ascending.holds _ hrow
  obtain ⟨sh, hrun, -, -, -, hrows, -⟩ := hstands.sound.deleteRow hkey (hI.get?_contents h hrow) pin
  obtain ⟨houter, h', hcontents⟩ := onStore_run h (hI.delete hkey pin) hrun
  refine ⟨_, houter, h', ?_⟩
  rw [hcontents, hrows]
  exact SortedMap.toList_erase_of_mem (Entry.orderedOn_fits _) hstands.ascending hrow

/-- The rows of several keys are removed one after the other. -/
theorem deleteEach_run (hkeys : ∀ k ∈ keys, k ∈ (t.contents s).keys) (hnodup : keys.Nodup)
    (pin : Bool) :
    ∃ s', (t.deleteEach pin keys).run s = (.ok (), s') ∧ I s' ∧
      (t.contents s').toList = (t.contents s).toList.filter fun b => decide (b.1 ∉ keys) := by
  induction keys generalizing s with
  | nil => exact ⟨s, rfl, h, by simp⟩
  | cons key rest ih =>
    obtain ⟨hkey, hrest⟩ := List.forall_mem_cons.1 hkeys
    obtain ⟨hnew, hdistinct⟩ := List.nodup_cons.1 hnodup
    obtain ⟨⟨own, row⟩, hrow, rfl⟩ := List.mem_map.1 hkey
    obtain ⟨s₁, hrun, h₁, hlist⟩ := hI.delete_run h hrow pin
    have hstill : ∀ k ∈ rest, k ∈ (t.contents s₁).keys := by
      intro k hk
      obtain ⟨b, hb, rfl⟩ := List.mem_map.1 (hrest k hk)
      refine List.mem_map.2 ⟨b, ?_, rfl⟩
      rw [hlist, List.mem_filter]
      refine ⟨hb, decide_eq_true ?_⟩
      exact fun heq => hnew (heq ▸ hk)
    obtain ⟨s', hrun', h', hlist'⟩ := ih h₁ hstill hdistinct
    refine ⟨s', by rw [deleteEach, Action.run_bind_ok hrun, hrun'], h', ?_⟩
    rw [hlist', hlist, List.filter_filter]
    refine List.filter_congr fun b _ => ?_
    simp [not_or, Bool.and_comm]

/-- A filter that cannot judge a row ends the deletion before a row is removed. -/
theorem deleteWhere_unjudged (hfound : t.selected filter (t.contents s).values = .error e)
    (pin : Bool) :
    ∃ s', (t.deleteWhere filter pin).run s = (.error e, s') ∧ I s' ∧
      t.contents s' = t.contents s := by
  obtain ⟨s', hsearch, h', hcontents⟩ := hI.matchingKeys h filter
  rw [hfound] at hsearch
  exact ⟨s', by rw [deleteWhere, Action.run_bind_error hsearch], h', hcontents⟩

/-- What is found is removed and counted. -/
theorem deleteWhere_run (hfound : t.selected filter (t.contents s).values = .ok found) (pin : Bool) :
    ∃ s', (t.deleteWhere filter pin).run s = (.ok found.length, s') ∧ I s' ∧
      (t.contents s').toList =
        (t.contents s).toList.filter fun b => decide (b.1 ∉ found.map t.keyOf) := by
  have hkeys := hI.selected_keys_sublist h hfound
  obtain ⟨s₁, hsearch, h₁, hcontents⟩ := hI.matchingKeys h filter
  rw [hfound] at hsearch
  rw [← hcontents] at hkeys ⊢
  have hnodup := ((hI.stands h₁).ascending.nodup_keys (Entry.orderedOn_fits _)).sublist hkeys
  obtain ⟨s', hrun, h', hlist⟩ := hI.deleteEach_run h₁ (fun _ hk => hkeys.subset hk) hnodup pin
  refine ⟨s', ?_, h', hlist⟩
  rw [deleteWhere, Action.run_bind_ok hsearch]
  rw [Action.run_bind_ok hrun, List.length_map]
  rfl

/-- A deletion whose filter can judge every row removes those of which it is true. -/
theorem deleteWhere_judged
    (hjudged : ∀ row ∈ (t.contents s).values, ∃ truth, t.judge filter row = .ok truth) (pin : Bool) :
    ∃ s', (t.deleteWhere filter pin).run s =
        (.ok (t.chosen filter (t.contents s).values).length, s') ∧ I s' ∧
      (t.contents s').values =
        (t.contents s).values.filter fun row => t.judge filter row ≠ .ok .yes := by
  obtain ⟨s', hrun, h', hlist⟩ := hI.deleteWhere_run h (selected_eq_chosen hjudged) pin
  refine ⟨s', hrun, h', ?_⟩
  have hkept : (t.contents s).toList.filter
        (fun b => decide (b.1 ∉ (t.chosen filter (t.contents s).values).map t.keyOf)) =
      (t.contents s).toList.filter fun b => t.judge filter b.2 ≠ .ok .yes :=
    List.filter_congr fun b hb => by simp only [hI.key_mem_chosen_iff h hb, ne_eq]
  rw [SortedMap.values, hlist, hkept, SortedMap.values, List.filter_map]
  rfl

end Steady

end Table

end PageDb
