import PageDb.Proofs.Table.Selecting

/-!
What a table shows of itself: a walk gives out its rows, it lists their keys, and the row of a key is
found under it and no row under any other key.
-/

namespace PageDb

/-- The rows to come are given out to the last one. -/
theorem Walk.rowsWithin_run {tables : List Table} {rows : Table → SortedMap Entry Row} {s : Tablespace}
    {walk : Walk} {rest : List (Entry × Row)} (h : Tablespace.Holds tables rows s)
    (hapart : Table.AllApart tables) (ht : walk.table ∈ tables)
    (hahead : walk.Ahead (rows walk.table) rest) {fuel : Nat} (hfuel : rest.length < fuel) :
    ((rowsWithin fuel).run (walk, s)).1 = .ok (rest.map Prod.snd) := by
  induction fuel generalizing walk s rest with
  | zero => omega
  | succ fuel ih =>
    obtain ⟨walk', s', hnext, h', htable, hahead'⟩ := nextRow_run h hapart ht hahead
    rw [rowsWithin, Action.run_bind_ok hnext]
    cases rest with
    | nil => rfl
    | cons b more =>
      have hmore := ih h' (htable ▸ ht) (htable ▸ hahead') (by simpa using hfuel)
      simp only [List.head?_cons, Option.map_some, List.map_cons]
      rw [Action.run_bind_pure, hmore]
      rfl

namespace Table

/-- What a table with the given rows answers. -/
structure Displays (t : Table) (rows : List Row) (s : Tablespace) : Prop where
  walk : (t.rows.run s).1 = .ok rows
  keys : (t.keys.run s).1 = .ok (rows.map t.keyOf)
  get : ∀ row ∈ rows, ((t.get (t.keyOf row)).run s).1 = .ok row
  absent : ∀ key, (∀ row ∈ rows, key.same (t.keyOf row) = false) →
    ((t.get key).run s).1 = .error (.keyNotFound key)

variable {t : Table} {I : Tablespace → Prop} {s : Tablespace}

/-- All rows are walked through. -/
theorem Stands.rows_run (h : t.Stands s) : (t.rows.run s).1 = .ok (t.contents s).values := by
  have hholds : Tablespace.Holds [t] (fun u => u.contents s) s := by
    simpa [Tablespace.Holds] using h
  have hwalk : t.walk.table ∈ [t] := List.mem_cons_self
  have hfuel : (t.contents s).toList.length < (t.store s).rowCount + 1 := by
    rw [h.rowCount]
    exact Nat.lt_succ_self _
  have hrows := Walk.rowsWithin_run hholds (by simp [AllApart]) hwalk
    (Walk.ahead_walk t (t.contents s)) hfuel
  rw [rows, run_walking, Walk.rows, Action.run_bind_ok (Action.run_get (t.walk, s))]
  exact hrows

/-- A table displays what it holds. -/
theorem Steady.displays (hI : t.Steady I) (h : I s) : t.Displays (t.contents s).values s where
  walk := (hI.stands h).rows_run
  keys := by rw [(hI.stands h).keys, keys_eq_map_keyOf (hI.binds h)]
  get row hrow := by
    obtain ⟨b, hb, rfl⟩ := List.mem_map.1 hrow
    rw [show t.keyOf b.2 = b.1 from (hI.key_eq h hb).symm, (hI.stands h).get, answerTo,
      hI.get?_contents h hb]
  absent key hother := by
    have hnone : (t.contents s).get? key = none := by
      refine Option.map_eq_none_iff.2 (Option.eq_none_iff_forall_not_mem.2 fun b hb => ?_)
      obtain ⟨hmem, hsame⟩ := SortedMap.mem_of_find? hb
      have hdiffer := hother b.2 (List.mem_map.2 ⟨b, hmem, rfl⟩)
      rw [show t.keyOf b.2 = b.1 from (hI.key_eq h hmem).symm, Entry.same_eq_false_iff] at hdiffer
      exact hdiffer hsame
    rw [(hI.stands h).get, answerTo, hnone]

end Table

end PageDb
