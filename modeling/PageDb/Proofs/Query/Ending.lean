import PageDb.Proofs.Query.Enumeration
import PageDb.Proofs.Query.Scanning

/-!
Queries come to an end.

What a new query gives out is a list, whether it reads one table or joins several ones, and after the
list it gives out nothing.  One kind of query is different: a selection of constants that cannot be
compared fails on every call, and nothing is ever left behind.
-/

namespace PageDb

namespace Join

variable {tables : List Table} {rows : Table → SortedMap Entry Row} {s : Tablespace}
  {on : Option Predicate}

/-- Walks are merged only if there are two of them. -/
theorem eq_pair_of_planFor_merge (h : planFor tables on = .merge) : ∃ t u, tables = [t, u] := by
  rcases planFor_cases tables on with hproduct | ⟨left, right, hby⟩
  · rw [hproduct] at h
    cases h
  rw [hby] at h
  rcases planBy_cases tables left right with hproduct | ⟨-, -, ⟨-, hlength, -⟩ | hkeys | hkeys⟩
  · rw [hproduct] at h
    cases h
  · exact List.length_eq_two.1 hlength
  · rw [hkeys.1] at h
    cases h
  · rw [hkeys.1] at h
    cases h

/-- What a new join gives out, by its plan: what the predicates make of the pairs that two walks meet,
or of the combinations of the tables that are iterated. -/
def due (tables : List Table) (rows : Table → SortedMap Entry Row) (on p : Option Predicate) :
    List (Result JointRow) :=
  match planFor tables on, tables with
  | .merge, [t, u] =>
    items tables (some .always) p
      ((Merge.pairUp (rows t).toList (rows u).toList).map fun pair => some [pair.1.2, pair.2.2])
  | plan, _ => (combos tables rows plan).filterMap (given tables rows on p)

theorem due_of_not_merge (hplan : planFor tables on ≠ .merge) (rows : Table → SortedMap Entry Row)
    (p : Option Predicate) :
    due tables rows on p = (combos tables rows (planFor tables on)).filterMap (given tables rows on p) := by
  unfold due
  split
  · rename_i h
    exact absurd h hplan
  · rfl

/-- A new join has everything to give out. -/
theorem gives_due (h : Tablespace.Holds tables rows s) (hapart : Table.AllApart tables)
    (on p : Option Predicate) :
    Gives tables rows (remaining tables on) p (due tables rows on p) (ofTables tables on) s := by
  by_cases hplan : planFor tables on = .merge
  · obtain ⟨t, u, rfl⟩ := eq_pair_of_planFor_merge hplan
    have hremaining : remaining [t, u] on = some .always := by simp [remaining, hplan]
    rw [hremaining]
    refine ⟨_, over_of_merge h hplan, makes_of_merge hapart hplan, ?_, ?_⟩
    · rw [List.length_map]
      exact length_pairs_lt_bound rows t u
    · simp only [due, hplan]
  · rw [due_of_not_merge hplan]
    exact gives_ofTables h hapart hplan p

end Join

/-- Draining a query over a join gives out what its plan says. -/
theorem Query.drains_join {tables : List Table} {rows : Table → SortedMap Entry Row} {s : Tablespace}
    (h : Tablespace.Holds tables rows s) (hapart : Table.AllApart tables) (on p : Option Predicate) :
    Moving.Drains Query.next tables rows ((Query.ofJoin tables on).withSelection p, s)
      (Join.due tables rows on p) :=
  drains_of_supplies Join.supplies
    (fun _ hspares _ _ _ _ ⟨j, hjoin, hgives⟩ => ⟨j, hjoin, hgives.spared hspares⟩)
    ⟨.ofTables tables on, rfl, Join.gives_due h hapart on p⟩

/-! ## A selection without an answer -/

namespace Query

/-- A query that has yet to decide on a comparison of constants. -/
def Undecided (c : Comparison) (q : Query) : Prop :=
  ∃ walk b, q = ⟨.scan ⟨walk, .constant⟩, some (.compare c), ⟨none, b, none⟩⟩

variable {c : Comparison} {e : Error} {q : Query}

/-- A decision that fails is not made: the next call tries again. -/
theorem Undecided.next_run (hfails : c.evaluate none = .error e) (h : Undecided c q)
    (s : Tablespace) :
    (next.run (q, s)).1 = .error e ∧ Undecided c (next.run (q, s)).2.1 := by
  obtain ⟨walk, b, rfl⟩ := h
  have hscan : (Scan.produce (some (.compare c)) b).run (⟨walk, .constant⟩, s) =
      (.error e, (⟨walk, .constant⟩, s)) := by
    have hevaluate : (Predicate.compare c).evaluate none = .error e := hfails
    unfold Scan.produce
    rw [Action.run_bind_ok (Moving.run_mover _ s)]
    simp only [hevaluate]
    rfl
  have hproduce : (Source.produce (some (.compare c)) b).run (.scan ⟨walk, .constant⟩, s) =
      (.error e, (.scan ⟨walk, .constant⟩, s)) := by
    rw [Scan.run_source, hscan]
  rw [run_next, Lookahead.next_of_none, hproduce]
  exact ⟨rfl, walk, false, rfl⟩

theorem Undecided.reached (hfails : c.evaluate none = .error e) (h : Undecided c q)
    (works : List (Tablespace → Tablespace)) (s : Tablespace) :
    Undecided c (Moving.reached next works (q, s)).1 := by
  induction works generalizing q s with
  | nil => exact h
  | cons work rest ih => exact ih (h.next_run hfails s).2 _

/-- A query with a selection of constants that cannot be compared fails on every call. -/
theorem fails_of_constants (hcolumn : c.hasColumn = false) (hfails : c.evaluate none = .error e)
    (t : Table) (s : Tablespace) (works : List (Tablespace → Tablespace)) :
    (next.run (Moving.reached next works
      ((ofTable t).withSelection (some (.compare c)), s))).1 = .error e := by
  have hplan : t.planFor (some (.compare c)) = .constant := by simp [Table.planFor, hcolumn]
  have hstart : Undecided c ((ofTable t).withSelection (some (.compare c))) :=
    ⟨t.walk, true, by rw [← hplan]; rfl⟩
  exact ((hstart.reached hfails works s).next_run hfails _).1

/-- Every query over a join comes to an end, and so does every query over one table, unless its selection
has no answer; what they give out before that is known.  A selection without an answer fails for
ever. -/
theorem drains_iff {tables : List Table} {rows : Table → SortedMap Entry Row} {s : Tablespace}
    (h : Tablespace.Holds tables rows s) (hapart : Table.AllApart tables) (p : Option Predicate) :
    (∀ on items, Moving.Drains next tables rows ((ofJoin tables on).withSelection p, s) items ↔
        items = Join.due tables rows on p) ∧
      ∀ t ∈ tables,
        (∀ items, Moving.Drains next tables rows ((ofTable t).withSelection p, s) items ↔
          ¬ Predicate.Unanswerable p ∧ items = Scan.due t (rows t) p) ∧
        (Predicate.Unanswerable p → ∃ e, ∀ works : List (Tablespace → Tablespace),
          (next.run (Moving.reached next works ((ofTable t).withSelection p, s))).1 = .error e) := by
  have hfails (t : Table) (hnone : Predicate.Unanswerable p) :
      ∃ e, ∀ works : List (Tablespace → Tablespace),
        (next.run (Moving.reached next works ((ofTable t).withSelection p, s))).1 = .error e := by
    obtain ⟨c, e, rfl, hcolumn, herror⟩ := hnone
    exact ⟨e, fails_of_constants hcolumn herror t s⟩
  refine ⟨fun on items => ?_, fun t ht => ⟨fun items => ?_, hfails t⟩⟩
  · have hdue := drains_join h hapart on p
    exact ⟨fun hdrains => hdrains.unique hdue, fun heq => heq ▸ hdue⟩
  · constructor
    · intro hdrains
      have hanswers : ¬ Predicate.Unanswerable p := by
        intro hnone
        obtain ⟨e, hall⟩ := hfails t hnone
        -- after as many calls as there are items, nothing would be left to give out
        have hend := hdrains (List.replicate items.length id) (by simp [Tablespace.Spares])
        rw [hall, List.length_replicate, List.getElem?_eq_none (Nat.le_refl _)] at hend
        cases hend
      exact ⟨hanswers, hdrains.unique (drains_due h hapart ht hanswers)⟩
    · rintro ⟨hanswers, rfl⟩
      exact drains_due h hapart ht hanswers

/-- A number equated with a text. -/
def incomparable : Comparison := ⟨.number (.ofInt .double 1), .eq, .text "a"⟩

/-- Two tables are merged, and one of them is read as far as its keys are above 1. -/
theorem drains_iff_of_ints :
    let s := withKeys .int [["3", "1", "2"], ["2", "4", "3"]]
    let above : Predicate := .compare ⟨.column "u.x", .gt, .number (.ofInt .double 1)⟩
    (∃ items, Moving.Drains next (keyTables .int) (fun t => t.contents s)
        ((ofJoin (keyTables .int) (some (.equates "x" "y"))).withSelection (some above), s) items ∧
      items.map (Except.map JointRow.entries) = [.ok [.int 2, .int 2], .ok [.int 3, .int 3]]) ∧
    ∃ items, Moving.Drains next (keyTables .int) (fun t => t.contents s)
        ((ofTable (keyTable 1 "u" "x" .int)).withSelection (some above), s) items ∧
      items.map (Except.map JointRow.entries) = [.ok [.int 2], .ok [.int 3]] := by
  intro s above
  have horderly : Tablespace.Orderly (keyTables .int) s := orderly_withKeys _ _
  have hanswers : ¬ Predicate.Unanswerable (some above) := by
    rintro ⟨c, e, heq, hcolumn, -⟩
    rw [← Predicate.compare.inj (Option.some.inj heq)] at hcolumn
    cases hcolumn
  obtain ⟨hjoin, htable⟩ := drains_iff horderly.holds horderly.apart (some above)
  have ht : keyTable 1 "u" "x" .int ∈ keyTables .int := by simp [keyTables]
  exact ⟨⟨_, (hjoin _ _).2 rfl, by decide +kernel⟩,
    ⟨_, ((htable _ ht).1 _).2 ⟨hanswers, rfl⟩, by decide +kernel⟩⟩

/-- However often it is called, the query over a sound table never gives out nothing. -/
theorem not_ends_of_incomparable :
    let s := withKeys .int [["1"], []]
    Tablespace.Orderly (keyTables .int) s ∧
      ¬ ∃ calls, (next.run (Moving.reached next (List.replicate calls id)
        ((ofTable (keyTable 1 "u" "x" .int)).withSelection (some (.compare incomparable)), s))).1 =
          .ok none := by
  refine ⟨orderly_withKeys _ _, fun ⟨calls, hnone⟩ => ?_⟩
  rw [fails_of_constants (e := .typeMismatch .number .text) rfl rfl] at hnone
  cases hnone

end Query

end PageDb
