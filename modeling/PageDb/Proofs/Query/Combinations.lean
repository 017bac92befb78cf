import PageDb.Proofs.Query.Drain
import PageDb.Proofs.Query.Odometer

/-!
The combinations that a join makes by walking its tables.

With every table walked they are all combinations of rows.  With one table looked up they are the
combinations of the others, each with the row that its key finds or without one.
-/

namespace PageDb

namespace Join

/-- What a combination of walked rows gives: itself, or with the row that it looks up. -/
def outcome (tables : List Table) (rows : Table → SortedMap Entry Row) (plan : JoinPlan)
    (shown : List (Option Row)) : Option (List Row) :=
  match plan with
  | .lookup target source column =>
    match (shown[source]?).join, tables[target]? with
    | some row, some t =>
      ((rows t).get? ((row.entries[column]?).getD .null)).bind fun found =>
        (shown.set target (some found)).mapM id
    | _, _ => none
  | _ => shown.mapM id

/-- The plan of a join that walks its tables, and which of them it walks. -/
def Walks (tables : List Table) (j : Join) : Prop :=
  j.current.length = tables.length ∧
    match j.plan with
    | .product => ∀ k < tables.length, (j.walk? k).isSome = true
    | .lookup target source _ => target < tables.length ∧ source ≠ target ∧
        ∀ k < tables.length, (j.walk? k).isSome = true ↔ k ≠ target
    | .merge => False

variable {tables : List Table} {rows : Table → SortedMap Entry Row} {condition : Option Predicate}
  {j j' : Join} {s s' : Tablespace} {i : Nat} {wheels : List Wheel}

theorem Over.alike (h : Over tables rows condition j s) (halike : Alike j j')
    (hholds : Tablespace.Holds tables rows s') : Over tables rows condition j' s' :=
  ⟨halike.tables.trans h.tables_eq, halike.condition.trans h.condition_eq, hholds⟩

theorem Walks.alike (h : Walks tables j) (halike : Alike j j') : Walks tables j' := by
  refine ⟨halike.width.trans h.1, ?_⟩
  have hplan := h.2
  rw [halike.plan]
  cases hj : j.plan with
  | product =>
    simp only [hj] at hplan ⊢
    intro k hk
    rw [halike.walked, hplan k hk]
  | lookup target source column =>
    simp only [hj] at hplan ⊢
    refine ⟨hplan.1, hplan.2.1, fun k hk => ?_⟩
    rw [halike.walked, hplan.2.2 k hk]
  | merge => simp [hj] at hplan

theorem Shows.length (h : Shows rows j i wheels) : wheels.length = i := by
  induction h with
  | nil => rfl
  | blank _ _ ih => simp [ih]
  | walked _ _ _ _ _ ih => simp [ih]

/-- What the wheels show is the current row where there is a walk. -/
theorem Shows.getElem? (h : Shows rows j i wheels) {k : Nat} (hk : k < i) :
    (Wheel.now wheels).reverse[k]? =
      if (j.walk? k).isSome then j.current[k]? else some none := by
  induction h with
  | nil => omega
  | @blank i wheels hwalk hbelow ih =>
    have hlength : (Wheel.now wheels).reverse.length = i := by simp [hbelow.length]
    rw [Wheel.reverse_now_cons]
    rcases Nat.lt_succ_iff_lt_or_eq.1 hk with hlt | rfl
    · rw [List.getElem?_append_left (by omega)]
      exact ih hlt
    · rw [List.getElem?_append_right (by omega), hlength]
      simp [hwalk, Wheel.blank]
  | @walked i wheels walk rest row hwalk _ _ hrow hbelow ih =>
    have hlength : (Wheel.now wheels).reverse.length = i := by simp [hbelow.length]
    rw [Wheel.reverse_now_cons]
    rcases Nat.lt_succ_iff_lt_or_eq.1 hk with hlt | rfl
    · rw [List.getElem?_append_left (by omega)]
      exact ih hlt
    · rw [List.getElem?_append_right (by omega), hlength]
      simp [hwalk, hrow]

/-- The combination that a join shows, with nothing where rows are looked up. -/
theorem Walks.shown (h : Walks tables j) (hshows : Shows rows j tables.length wheels) :
    (Wheel.now wheels).reverse =
      match j.plan with
      | .lookup target _ _ => j.current.set target none
      | _ => j.current := by
  obtain ⟨hwidth, hplan⟩ := h
  have hlength : (Wheel.now wheels).reverse.length = tables.length := by simp [hshows.length]
  cases hj : j.plan with
  | merge => simp [hj] at hplan
  | product =>
    simp only [hj] at hplan ⊢
    refine List.ext_getElem? fun k => ?_
    by_cases hk : k < tables.length
    · rw [hshows.getElem? hk, hplan k hk, if_pos rfl]
    · rw [List.getElem?_eq_none (by omega), List.getElem?_eq_none (by omega)]
  | lookup target source column =>
    simp only [hj] at hplan ⊢
    refine List.ext_getElem? fun k => ?_
    by_cases hk : k < tables.length
    · rw [hshows.getElem? hk]
      by_cases htarget : k = target
      · subst htarget
        have hnone : (j.walk? k).isSome = false := by
          rw [← Bool.not_eq_true, hplan.2.2 k hk]
          simp
        rw [hnone, List.getElem?_set_self (by omega)]
        simp
      · rw [(hplan.2.2 k hk).2 htarget, if_pos rfl, List.getElem?_set_ne (Ne.symm htarget)]
    · rw [List.getElem?_eq_none (by omega), List.getElem?_eq_none (by simp; omega)]

theorem currentRows_eq (j : Join) : j.currentRows = Combination.of (j.current.mapM id) := by
  unfold currentRows
  cases j.current.mapM id <;> rfl

/-! ## One step -/

/-- After the walks have moved, the step ends by looking up what is left to look up. -/
def settle (plan : JoinPlan) : Moving Join Combination :=
  match plan with
  | .lookup target source column => lookupStep target source column
  | _ => do return (← Moving.mover).currentRows

theorem settle_run (hapart : Table.AllApart tables) (h : Over tables rows condition j s)
    (hwalks : Walks tables j) (hshows : Shows rows j tables.length wheels) :
    ∃ j' s', (settle j.plan).run (j, s) =
        (.ok (.of (outcome tables rows j.plan (Wheel.now wheels).reverse)), (j', s')) ∧
      Over tables rows condition j' s' ∧ Alike j j' ∧ Shows rows j' tables.length wheels := by
  have hshown := hwalks.shown hshows
  cases hplan : j.plan with
  | merge => simp [Walks, hplan] at hwalks
  | product =>
    simp only [hplan] at hshown
    refine ⟨j, s, ?_, h, .refl j, hshows⟩
    have hsettle : settle .product = do return (← Moving.mover).currentRows := rfl
    rw [hshown, hsettle, Action.run_bind_ok (Moving.run_mover j s), currentRows_eq]
    rfl
  | lookup target source column =>
    simp only [Walks, hplan] at hwalks
    obtain ⟨hwidth, htarget, hne, hwalked⟩ := hwalks
    simp only [hplan] at hshown
    obtain ⟨t, ht⟩ : ∃ t, tables[target]? = some t := ⟨_, List.getElem?_eq_getElem htarget⟩
    have hsource : (j.current.set target none)[source]? = j.current[source]? :=
      List.getElem?_set_ne (Ne.symm hne)
    rw [hshown, settle, outcome, hsource, ht]
    unfold lookupStep
    rw [Action.run_bind_ok (Moving.run_mover j s), h.tables_eq]
    -- the key to look up stands in the row that the source shows
    cases hrow : (j.current[source]?).join with
    | none => exact ⟨j, s, rfl, h, .refl j, hshows⟩
    | some row =>
      simp only [ht]
      have htmem : t ∈ tables := List.mem_of_getElem? ht
      obtain ⟨s', hfind, hholds⟩ := h.holds.find? hapart htmem ((row.entries[column]?).getD .null)
      have hstill : (Moving.still (t.find? ((row.entries[column]?).getD .null)) : Moving Join _).run
          (j, s) = (.ok ((rows t).get? ((row.entries[column]?).getD .null)), (j, s')) := by
        rw [Moving.run_still, hfind]
      rw [Action.run_bind_ok hstill]
      cases hget : (rows t).get? ((row.entries[column]?).getD .null) with
      | none => exact ⟨j, s', rfl, h.alike (.refl j) hholds, .refl j, hshows⟩
      | some found =>
        have halike : Alike j (j.withRow target found) := alike_withRow j target found
        refine ⟨j.withRow target found, s', ?_, h.alike halike hholds, halike, ?_⟩
        · simp only
          rw [Action.run_bind_ok (run_update _ j s'), Action.run_bind_ok (Moving.run_mover _ s'),
            currentRows_eq, Option.bind_some, List.set_set]
          rfl
        · refine hshows.congr rfl fun k hk => ⟨rfl, fun hsome => ?_⟩
          have hk' : target ≠ k := fun heq => (hwalked k hk).1 hsome heq.symm
          simp [withRow, List.getElem?_set_ne hk']

/-- A join that walks its tables, between two steps. -/
structure Walking (tables : List Table) (condition : Option Predicate) (j : Join) : Prop where
  tables_eq : j.tables = tables
  condition_eq : j.condition = condition
  walks : Walks tables j
  merge : j.merge = none
  going : j.exhausted = false

theorem Walking.spans (h : Walking tables condition j) (hholds : Tablespace.Holds tables rows s) :
    Over tables rows condition j s :=
  ⟨h.tables_eq, h.condition_eq, hholds⟩

theorem Walking.alike (h : Walking tables condition j) (halike : Alike j j') :
    Walking tables condition j' :=
  ⟨halike.tables.trans h.tables_eq, halike.condition.trans h.condition_eq, h.walks.alike halike,
    halike.merge.trans h.merge, halike.exhausted.trans h.going⟩

/-- The walks move on, or take their first rows. -/
def move (j : Join) : Moving Join Bool :=
  if j.seeded then advance j.tables.length
  else do
    update fun j => { j with seeded := true }
    seed j.tables.length 0

theorem Walking.step (h : Walking tables condition j) (s : Tablespace) :
    step.run (j, s) = (do if ← move j then settle j.plan else finish : Moving Join _).run (j, s) := by
  unfold Join.step
  rw [Action.run_bind_ok (Moving.run_mover j s)]
  simp only [h.going, h.merge, Bool.false_eq_true, if_false]
  unfold walkStep
  rw [Action.run_bind_ok (Moving.run_mover j s), move]
  cases j.seeded with
  | true => rfl
  | false =>
    simp only [Bool.false_eq_true, if_false, bind_assoc]
    rfl

/-- A step after which no walk has a row left ends the join. -/
theorem Walking.step_of_end (h : Walking tables condition j)
    (hmove : (move j).run (j, s) = (.ok false, (j', s')))
    (hover : Over tables rows condition j' s') :
    ∃ j' s', Join.step.run (j, s) = (.ok .exhausted, (j', s')) ∧
      Over tables rows condition j' s' ∧ j'.exhausted = true := by
  refine ⟨{ j' with exhausted := true }, s', ?_, ⟨hover.tables_eq, hover.condition_eq, hover.holds⟩, rfl⟩
  rw [h.step, Action.run_bind_ok hmove]
  rfl

/-- A step after which the wheels show a combination makes its outcome. -/
theorem Walking.step_of_shows (hapart : Table.AllApart tables) (h : Walking tables condition j)
    (hmove : (move j).run (j, s) = (.ok true, (j', s')))
    (h' : Walking tables condition j') (hholds : Tablespace.Holds tables rows s')
    (hplan : j'.plan = j.plan) (hshows : Shows rows j' tables.length wheels) :
    ∃ j'' s'', Join.step.run (j, s) =
        (.ok (.of (outcome tables rows j.plan (Wheel.now wheels).reverse)), (j'', s'')) ∧
      Over tables rows condition j'' s'' ∧ Alike j' j'' ∧ Shows rows j'' tables.length wheels := by
  obtain ⟨j'', s'', hsettle, hover, halike, hshows'⟩ :=
    settle_run hapart (h'.spans hholds) h'.walks hshows
  refine ⟨j'', s'', ?_, hover, halike, hshows'⟩
  rw [h.step, Action.run_bind_ok hmove, ← hplan]
  exact hsettle

theorem Walking.move_run (hapart : Table.AllApart tables) (h : Walking tables condition j)
    (hholds : Tablespace.Holds tables rows s) (hseeded : j.seeded = true)
    (hshows : Shows rows j tables.length wheels) :
    ∃ b j' s', (move j).run (j, s) = (.ok b, (j', s')) ∧ Tablespace.Holds tables rows s' ∧
      Alike j j' ∧
      match Wheel.turn wheels with
      | some turned => b = true ∧ Shows rows j' tables.length turned
      | none => b = false := by
  obtain ⟨b, j', s', hrun, hholds, halike, -, hturn⟩ := advance_run hapart hholds h.tables_eq hshows
  exact ⟨b, j', s', by rw [move, if_pos hseeded, h.tables_eq, hrun], hholds, halike, hturn⟩

/-- A join between two steps makes the outcomes of what its wheels will show. -/
theorem Walking.makes (hapart : Table.AllApart tables) (h : Walking tables condition j)
    (hseeded : j.seeded = true) (hshows : Shows rows j tables.length wheels) :
    Makes tables rows condition j
      ((Wheel.future wheels).map fun shown => outcome tables rows j.plan shown.reverse) := by
  -- on what the wheels will show; a step takes its head off
  induction hfuture : Wheel.future wheels generalizing j wheels with
  | nil =>
    intro s hover
    obtain ⟨b, j', s', hmove, hholds, halike, hturn⟩ := h.move_run hapart hover.holds hseeded hshows
    cases hturned : Wheel.turn wheels with
    | none =>
      simp only [hturned] at hturn
      subst hturn
      exact h.step_of_end hmove (hover.alike halike hholds)
    | some turned =>
      rw [Wheel.future_of_turn hturned] at hfuture
      cases hfuture
  | cons shown more ih =>
    intro s hover
    obtain ⟨b, j', s', hmove, hholds, halike, hturn⟩ := h.move_run hapart hover.holds hseeded hshows
    cases hturned : Wheel.turn wheels with
    | none =>
      rw [Wheel.future_of_turn_none hturned] at hfuture
      cases hfuture
    | some turned =>
      rw [Wheel.future_of_turn hturned] at hfuture
      obtain ⟨rfl, hmore⟩ := List.cons.inj hfuture
      simp only [hturned] at hturn
      obtain ⟨rfl, hshows'⟩ := hturn
      obtain ⟨j'', s'', hstep, hover'', halike'', hshows''⟩ :=
        h.step_of_shows hapart hmove (h.alike halike) hholds halike.plan hshows'
      refine ⟨j'', s'', hstep, hover'', ?_⟩
      have hplan : j''.plan = j.plan := halike''.plan.trans halike.plan
      rw [← hplan]
      exact ih ((h.alike halike).alike halike'')
        ((halike''.seeded.trans halike.seeded).trans hseeded) hshows'' hmore

/-- A new join that walks its tables makes the outcomes of all combinations. -/
theorem Walking.makes_all (hapart : Table.AllApart tables) (h : Walking tables condition j)
    (hseeded : j.seeded = false)
    (hnew : ∀ k walk, j.walk? k = some walk → ∃ t, j.tables[k]? = some t ∧ walk = t.walk) :
    Makes tables rows condition j ((j.positions rows tables.length).sections.map fun shown =>
      outcome tables rows j.plan shown.reverse) := by
  let j₁ : Join := { j with seeded := true }
  have h₁ : Walking tables condition j₁ := ⟨h.tables_eq, h.condition_eq, h.walks, h.merge, h.going⟩
  have hwidth : 0 + tables.length ≤ j₁.current.length := by
    rw [Nat.zero_add]
    exact Nat.le_of_eq h.walks.1.symm
  have hpositions : j₁.positions rows tables.length = j.positions rows tables.length :=
    positions_congr (show j₁.tables = j.tables from rfl) (fun _ => rfl) _
  have hfirst (s : Tablespace) (hholds : Tablespace.Holds tables rows s) :
      ∃ b j' s', (move j).run (j, s) = (.ok b, (j', s')) ∧ Tablespace.Holds tables rows s' ∧
        Alike j₁ j' ∧
        (b = true → ∃ wheels, Shows rows j' tables.length wheels ∧ ∀ w ∈ wheels, w.Fresh) ∧
        (b = false → (j.positions rows tables.length).sections = []) := by
    obtain ⟨b, j', s', hseed, hholds', halike, hresult⟩ :=
      seed_run hapart hholds (j := j₁) h.tables_eq .nil (by simp)
        (fun k _ walk hwalk => hnew k walk hwalk) hwidth
    rw [Nat.zero_add, hpositions] at hresult
    refine ⟨b, j', s', ?_, hholds', halike, fun hb => by rwa [hb] at hresult,
      fun hb => by rwa [hb] at hresult⟩
    rw [move, if_neg (by simp [hseeded]), Action.run_bind_ok (run_update _ j s),
      show j.tables.length = tables.length by rw [h.tables_eq]]
    exact hseed
  cases hsections : (j.positions rows tables.length).sections with
  | nil =>
    intro s hover
    obtain ⟨b, j', s', hmove, hholds, halike, hshown, -⟩ := hfirst s hover.holds
    cases b with
    | false => exact h.step_of_end hmove ((h₁.spans hover.holds).alike halike hholds)
    | true =>
      obtain ⟨wheels, hshows, hfresh⟩ := hshown rfl
      rw [← hpositions, ← halike.positions, ← hshows.positions, Wheel.sections_of_fresh hfresh]
        at hsections
      cases hsections
  | cons shown more =>
    intro s hover
    obtain ⟨b, j', s', hmove, hholds, halike, hshown, hnone⟩ := hfirst s hover.holds
    cases b with
    | false =>
      -- a table without rows leaves no combination at all
      rw [hnone rfl] at hsections
      cases hsections
    | true =>
      obtain ⟨wheels, hshows, hfresh⟩ := hshown rfl
      rw [← hpositions, ← halike.positions, ← hshows.positions, Wheel.sections_of_fresh hfresh]
        at hsections
      obtain ⟨rfl, rfl⟩ := List.cons.inj hsections
      obtain ⟨j'', s'', hstep, hover'', halike'', hshows''⟩ :=
        h.step_of_shows hapart hmove (h₁.alike halike) hholds halike.plan hshows
      refine ⟨j'', s'', hstep, hover'', ?_⟩
      have hplan : j''.plan = j.plan := halike''.plan.trans halike.plan
      rw [← hplan]
      exact ((h₁.alike halike).alike halike'').makes hapart
        ((halike''.seeded.trans halike.seeded).trans rfl) hshows''

end Join

end PageDb
