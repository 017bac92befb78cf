import PageDb.Proofs.Query.Lookahead
import PageDb.Query.Cursor

/-!
Draining a join.

`Join.Makes` lists the combinations that a join has yet to make.  What a query gives out are those
that pass the predicates, and the errors of those on which a predicate fails.  The lookahead only
delays them: `Query.Due` lists what is still to be given out, and every call takes the head off.
-/

namespace PageDb

/-- The members of a list that pass a test, in order.  The first test that fails ends it. -/
def sift {α : Type} (test : α → Result Bool) : List α → Result (List α)
  | [] => .ok []
  | a :: rest => do if ← test a then return a :: (← sift test rest) else sift test rest

section Sift

variable {α : Type} {test : α → Result Bool}

theorem sift_of_false {a : α} (h : test a = .ok false) (rest : List α) :
    sift test (a :: rest) = sift test rest := by
  simp [sift, h]

theorem sift_of_true {a : α} (h : test a = .ok true) (rest : List α) :
    sift test (a :: rest) = (sift test rest).map (a :: ·) := by
  simp only [sift, h, Result.ok_bind, if_true]
  cases sift test rest <;> rfl

theorem sift_of_error {a : α} {e : Error} (h : test a = .error e) (rest : List α) :
    sift test (a :: rest) = .error e := by
  simp [sift, h]

/-- A test that answers, as a condition. -/
def passes (test : α → Result Bool) (a : α) : Bool :=
  match test a with
  | .ok b => b
  | .error _ => false

theorem passes_of_ok {a : α} {b : Bool} (h : test a = .ok b) : passes test a = b := by
  simp [passes, h]

/-- Sifting succeeds if every test answers, and then keeps what passes. -/
theorem sift_eq_ok_iff {l kept : List α} : sift test l = .ok kept ↔
    (∀ a ∈ l, ∃ b, test a = .ok b) ∧ kept = l.filter (passes test) := by
  induction l generalizing kept with
  | nil => simp [sift, eq_comm]
  | cons a rest ih =>
    cases htest : test a with
    | error e => simp [sift_of_error htest, htest]
    | ok b =>
      cases b with
      | false => simp [sift_of_false htest, ih, htest, passes_of_ok htest]
      | true =>
        rw [sift_of_true htest, List.filter_cons_of_pos (passes_of_ok htest)]
        cases hrest : sift test rest with
        | error e =>
          have hnot : ¬ ∀ a ∈ rest, ∃ b, test a = .ok b := fun hall => by
            rw [ih.2 ⟨hall, rfl⟩] at hrest
            cases hrest
          simp only [List.forall_mem_cons]
          exact ⟨nofun, fun h => absurd h.1.2 hnot⟩
        | ok more =>
          obtain ⟨hall, rfl⟩ := ih.1 hrest
          simp only [List.forall_mem_cons]
          exact ⟨fun h => ⟨⟨⟨true, htest⟩, hall⟩, by cases h; rfl⟩, fun h => by rw [h.2]; rfl⟩

/-- What a test makes of a candidate: it is accepted, passed over, or cannot be judged. -/
def verdict (test : α → Result Bool) (a : α) : Option (Result α) :=
  match test a with
  | .ok true => some (.ok a)
  | .ok false => none
  | .error e => some (.error e)

/-- Sifting ends with the first candidate that cannot be judged. -/
theorem sift_eq_mapM (l : List α) : sift test l = (l.filterMap (verdict test)).mapM id := by
  induction l with
  | nil => rfl
  | cons a rest ih =>
    cases htest : test a with
    | error e => simp [sift_of_error htest, verdict, htest]
    | ok b =>
      cases b with
      | false => simp [sift_of_false htest, verdict, htest, ih]
      | true =>
        rw [sift_of_true htest, ih]
        cases hrest : (rest.filterMap (verdict test)).mapM id <;>
          simp [verdict, htest, hrest] <;> rfl

end Sift

namespace Join

/-- Whether the predicates accept a combination of rows: first what is left of the join predicate,
and then the selection. -/
def judge (condition p : Option Predicate) (row : JointRow) : Result Bool := do
  if ← Predicate.accepts condition row then Predicate.accepts p row else return false

end Join

/-- A step that made these rows, or none. -/
def Combination.of : Option (List Row) → Combination
  | some made => .rows made
  | none => .discarded

namespace Join

/-- A join over tables that hold the given rows. -/
structure Over (tables : List Table) (rows : Table → SortedMap Entry Row)
    (condition : Option Predicate) (j : Join) (s : Tablespace) : Prop where
  tables_eq : j.tables = tables
  condition_eq : j.condition = condition
  holds : Tablespace.Holds tables rows s

/-- The combinations that a join has yet to make, whatever state the tables are in that hold the rows.
Nothing stands for a combination that is discarded. -/
def Makes (tables : List Table) (rows : Table → SortedMap Entry Row) (condition : Option Predicate)
    (j : Join) : List (Option (List Row)) → Prop
  | [] => ∀ s, Over tables rows condition j s → ∃ j' s', step.run (j, s) = (.ok .exhausted, (j', s')) ∧
      Over tables rows condition j' s' ∧ j'.exhausted = true
  | made :: later => ∀ s, Over tables rows condition j s → ∃ j' s',
      step.run (j, s) = (.ok (.of made), (j', s')) ∧ Over tables rows condition j' s' ∧
        Makes tables rows condition j' later

variable {tables : List Table} {rows : Table → SortedMap Entry Row} {condition : Option Predicate}
  {j j' : Join} {s s' : Tablespace} {later : List (Option (List Row))}

/-- A join that is exhausted stays so. -/
theorem makes_of_exhausted (h : j.exhausted = true) : Makes tables rows condition j [] := by
  refine fun s hover => ⟨j, s, ?_, hover, h⟩
  unfold step
  rw [Action.run_bind_ok (Moving.run_mover j s)]
  simp only [h, if_true]
  rfl

/-- The combinations that are not discarded, side by side. -/
def joined (tables : List Table) (later : List (Option (List Row))) : List JointRow :=
  (later.filterMap id).map (JointRow.ofRows (tables.map Table.heading))

/-- What becomes of a combination is decided by the predicates. -/
theorem produceWithin_rows (p : Option Predicate) (hover : Over tables rows condition j' s')
    {made : List Row} (hstep : step.run (j, s) = (.ok (.rows made), (j', s'))) (fuel : Nat) :
    (produceWithin p (fuel + 1)).run (j, s) =
      match judge condition p (.ofRows (tables.map Table.heading) made) with
      | .ok true => (.ok (some (.ofRows (tables.map Table.heading) made)), (j', s'))
      | .ok false => (produceWithin p fuel).run (j', s')
      | .error e => (.error e, (j', s')) := by
  have hheadings : j'.headings = tables.map Table.heading := by rw [headings, hover.tables_eq]
  simp only [produceWithin]
  rw [Action.run_bind_ok hstep]
  simp only
  rw [Action.run_bind_ok (Moving.run_mover j' s'), hheadings, hover.condition_eq]
  generalize JointRow.ofRows (tables.map Table.heading) made = row
  unfold judge
  cases hcondition : Predicate.accepts condition row with
  | error e => rfl
  | ok b =>
    rw [Action.run_bind_ok (Action.run_lift _ _), Result.ok_bind]
    cases b with
    | false => rfl
    | true =>
      simp only [if_true]
      cases hp : Predicate.accepts p row with
      | error e => rfl
      | ok b =>
        rw [Action.run_bind_ok (Action.run_lift _ _)]
        cases b <;> rfl

/-- What a query gives out of the combinations to come: the rows that the predicates accept, and the
errors of those on which one of them fails. -/
def items (tables : List Table) (condition p : Option Predicate)
    (later : List (Option (List Row))) : List (Result JointRow) :=
  (joined tables later).filterMap (verdict (judge condition p))

theorem items_rows (tables : List Table) (condition p : Option Predicate) (made : List Row)
    (later : List (Option (List Row))) :
    items tables condition p (some made :: later) =
      match judge condition p (.ofRows (tables.map Table.heading) made) with
      | .ok true => .ok (.ofRows (tables.map Table.heading) made) :: items tables condition p later
      | .ok false => items tables condition p later
      | .error e => .error e :: items tables condition p later := by
  simp only [items, joined, List.filterMap_cons, id, List.map_cons, verdict]
  rcases judge condition p (.ofRows (tables.map Table.heading) made) with e | b
  · rfl
  · cases b <;> rfl

theorem length_items_le (tables : List Table) (condition p : Option Predicate)
    (later : List (Option (List Row))) : (items tables condition p later).length ≤ later.length := by
  have hjoined : (joined tables later).length ≤ later.length := by
    rw [joined, List.length_map]
    exact List.length_filterMap_le id later
  exact Nat.le_trans (List.length_filterMap_le _ _) hjoined

/-- More than all combinations of rows. -/
def bound (tables : List Table) (rows : Table → SortedMap Entry Row) : Nat :=
  (tables.map fun t => (rows t).size + 1).foldl (· * ·) 1 + 1

/-- A join that has yet to give out some items. -/
def Gives (tables : List Table) (rows : Table → SortedMap Entry Row) (condition p : Option Predicate)
    (due : List (Result JointRow)) (j : Join) (s : Tablespace) : Prop :=
  ∃ later, Over tables rows condition j s ∧ Makes tables rows condition j later ∧
    later.length < bound tables rows ∧ due = items tables condition p later

/-- What producing a row leaves behind when some items are to come. -/
structure Passes (tables : List Table) (rows : Table → SortedMap Entry Row)
    (condition p : Option Predicate) (due : List (Result JointRow)) (j : Join) (s : Tablespace) :
    Prop where
  gives : Gives tables rows condition p due.tail j s
  exhausted : due = [] → j.exhausted = true

/-- Producing a row finds the first combination that is not passed over. -/
theorem produceWithin_run (p : Option Predicate) (hover : Over tables rows condition j s)
    (h : Makes tables rows condition j later) (hbound : later.length < bound tables rows)
    {fuel : Nat} (hfuel : later.length < fuel) :
    ∃ j' s', (produceWithin p fuel).run (j, s) =
        (Moving.answer (items tables condition p later).head?, (j', s')) ∧
      Passes tables rows condition p (items tables condition p later) j' s' := by
  induction later generalizing j s fuel with
  | nil =>
    obtain ⟨fuel, rfl⟩ : ∃ k, fuel = k + 1 := ⟨fuel - 1, by simp at hfuel; omega⟩
    obtain ⟨j', s', hstep, hover', hexhausted⟩ := h s hover
    refine ⟨j', s', ?_, ⟨[], hover', makes_of_exhausted hexhausted, hbound, rfl⟩, fun _ => hexhausted⟩
    simp only [produceWithin]
    rw [Action.run_bind_ok hstep]
    rfl
  | cons made later ih =>
    obtain ⟨fuel, rfl⟩ : ∃ k, fuel = k + 1 := ⟨fuel - 1, by simp at hfuel; omega⟩
    obtain ⟨j₁, s₁, hstep, hover₁, hlater⟩ := h s hover
    have hbound₁ : later.length < bound tables rows := by simp at hbound; omega
    have hfuel₁ : later.length < fuel := by simpa using hfuel
    obtain ⟨j', s', hrun, hpasses⟩ := ih hover₁ hlater hbound₁ hfuel₁
    cases made with
    | none =>
      refine ⟨j', s', ?_, hpasses⟩
      simp only [produceWithin]
      rw [Action.run_bind_ok hstep]
      exact hrun
    | some made =>
      rw [produceWithin_rows p hover₁ hstep, items_rows]
      have hgives : Gives tables rows condition p (items tables condition p later) j₁ s₁ :=
        ⟨later, hover₁, hlater, hbound₁, rfl⟩
      cases judge condition p (.ofRows (tables.map Table.heading) made) with
      | error e => exact ⟨j₁, s₁, rfl, hgives, nofun⟩
      | ok b =>
        cases b with
        | true => exact ⟨j₁, s₁, rfl, hgives, nofun⟩
        | false => exact ⟨j', s', hrun, hpasses⟩

theorem Over.combinations (h : Over tables rows condition j s) :
    j.combinations s = bound tables rows := by
  have hcounts : tables.map (fun t => (t.store s).rowCount + 1) =
      tables.map fun t => (rows t).size + 1 :=
    List.map_congr_left fun t ht => by rw [h.holds.rowCount ht]
  rw [Join.combinations, h.tables_eq, hcounts, bound]

theorem run_source (p : Option Predicate) (b : Bool) (j : Join) (s : Tablespace) :
    (Source.produce p b).run (.join j, s) = (((produce p).run (j, s)).1,
      (.join ((produce p).run (j, s)).2.1, ((produce p).run (j, s)).2.2)) := rfl

/-- Producing a row gives out the first item that is due. -/
theorem Gives.produce_run {p : Option Predicate} {due : List (Result JointRow)}
    (h : Gives tables rows condition p due j s) (b : Bool) :
    ∃ j' s', (Source.produce p b).run (.join j, s) =
        (Moving.answer due.head?, (.join j', s')) ∧ Passes tables rows condition p due j' s' := by
  obtain ⟨later, hover, hmakes, hbound, rfl⟩ := h
  obtain ⟨j', s', hrun, hpasses⟩ := produceWithin_run p hover hmakes hbound hbound
  refine ⟨j', s', ?_, hpasses⟩
  have hproduce : (produce p).run (j, s) =
      (Moving.answer (items tables condition p later).head?, (j', s')) := by
    unfold produce
    rw [Action.run_bind_ok (Action.run_get (j, s))]
    simp only
    rw [hover.combinations]
    exact hrun
  rw [run_source, hproduce]

/-- What a join has yet to give out does not depend on work that leaves the rows alone. -/
theorem Gives.spared {p : Option Predicate} {due : List (Result JointRow)}
    (h : Gives tables rows condition p due j s) {work : Tablespace → Tablespace}
    (hwork : Tablespace.Spares tables rows work) :
    Gives tables rows condition p due j (work s) := by
  obtain ⟨later, hover, hlater⟩ := h
  exact ⟨later, ⟨hover.tables_eq, hover.condition_eq, hwork s hover.holds⟩, hlater⟩

/-- What a join has yet to give out, as a source of a query. -/
def Supply (tables : List Table) (rows : Table → SortedMap Entry Row) (condition p : Option Predicate)
    (_ : Bool) (due : List (Result JointRow)) (now : Source × Tablespace) : Prop :=
  ∃ j, now.1 = .join j ∧ Gives tables rows condition p due j now.2

theorem supplies {p : Option Predicate} :
    Lookahead.Supplies (Source.produce p) (Supply tables rows condition p) where
  answers := by
    rintro b due ⟨_, s⟩ ⟨j, rfl, hgives⟩
    obtain ⟨j', s', hrun, -⟩ := hgives.produce_run b
    exact congrArg Prod.fst hrun
  later := by
    rintro b _ due ⟨_, s⟩ ⟨j, rfl, hgives⟩ -
    obtain ⟨j', s', hrun, hpasses⟩ := hgives.produce_run b
    rw [hrun]
    exact ⟨j', rfl, hpasses.gives⟩

end Join

/-! ## All rows of a query -/

namespace Query

variable {tables : List Table} {rows : Table → SortedMap Entry Row} {condition p : Option Predicate}
  {j : Join} {s : Tablespace} {later : List (Option (List Row))} {due : List (Result JointRow)}
  {now : Query × Tablespace}

/-- What the lookahead does to a query. -/
theorem run_next (q : Query) (s : Tablespace) :
    next.run (q, s) =
      (((Lookahead.next (Source.produce q.selection)).run (q.ahead, q.source, s)).1,
        ({ q with
          source := ((Lookahead.next (Source.produce q.selection)).run (q.ahead, q.source, s)).2.2.1
          ahead := ((Lookahead.next (Source.produce q.selection)).run (q.ahead, q.source, s)).2.1 },
        ((Lookahead.next (Source.produce q.selection)).run (q.ahead, q.source, s)).2.2.2)) := rfl

/-- A query that has yet to give out some items, where `P` lists what its source has yet to make. -/
def Owes (P : Bool → List (Result JointRow) → Source × Tablespace → Prop) (p : Option Predicate)
    (due : List (Result JointRow)) (now : Query × Tablespace) : Prop :=
  now.1.selection = p ∧ Lookahead.Due P due (now.1.ahead, now.1.source, now.2)

section Owes

variable {P : Bool → List (Result JointRow) → Source × Tablespace → Prop}

/-- One call gives out the first item that is due and leaves the others. -/
theorem Owes.next_run (hsupplies : Lookahead.Supplies (Source.produce p) P) (h : Owes P p due now) :
    (next.run now).1 = Moving.answer due.head? ∧ Owes P p due.tail (next.run now).2 := by
  obtain ⟨q, s⟩ := now
  obtain ⟨rfl, hdue⟩ := h
  obtain ⟨hanswer, hlater⟩ := hsupplies.next_run hdue
  rw [Query.run_next]
  exact ⟨hanswer, rfl, hlater⟩

/-- A new query gives out what its source has yet to make, if others leave that alone. -/
theorem drains_of_supplies (hsupplies : Lookahead.Supplies (Source.produce p) P)
    (hwork : ∀ work, Tablespace.Spares tables rows work → ∀ b due source s,
      P b due (source, s) → P b due (source, work s))
    {source : Source} (h : P true due (source, s)) :
    Moving.Drains next tables rows (⟨source, p, {}⟩, s) due := by
  have howes : Owes P p due (⟨source, p, {}⟩, s) := ⟨rfl, .idle h⟩
  refine Moving.drains_of_call (fun due now hnow => hnow.next_run hsupplies)
    (fun work hspares due q s hnow => ?_) howes
  obtain ⟨source, selection, ahead⟩ := q
  obtain ⟨hselection, hdue⟩ := hnow
  refine ⟨hselection, ?_⟩
  dsimp only at hdue ⊢
  cases hdue with
  | idle hP => exact .idle (hwork work hspares _ _ _ _ hP)
  | ready hP => exact .ready (hwork work hspares _ _ _ _ hP)
  | held hP => exact .held (hwork work hspares _ _ _ _ hP)

end Owes

/-- A query over a join that has yet to give out some items.  The first of them may be ready, or be
an error that is held back. -/
inductive Due (tables : List Table) (rows : Table → SortedMap Entry Row)
    (condition p : Option Predicate) : List (Result JointRow) → Query × Tablespace → Prop
  | idle {due j s b} : Join.Gives tables rows condition p due j s →
      Due tables rows condition p due (⟨.join j, p, ⟨none, b, none⟩⟩, s)
  | ready {due j s b row} : Join.Gives tables rows condition p due j s →
      Due tables rows condition p (.ok row :: due) (⟨.join j, p, ⟨some row, b, none⟩⟩, s)
  | held {due j s b e} : Join.Gives tables rows condition p due j s →
      Due tables rows condition p (.error e :: due) (⟨.join j, p, ⟨none, b, some e⟩⟩, s)

/-- One call gives out the first item that is due and leaves the others. -/
def GivesOut (tables : List Table) (rows : Table → SortedMap Entry Row)
    (condition p : Option Predicate) (due : List (Result JointRow))
    (given : Result (Option JointRow) × (Query × Tablespace)) : Prop :=
  given.1 = Moving.answer due.head? ∧ Due tables rows condition p due.tail given.2 ∧
    (due = [] → ∃ j, given.2.1.source = .join j ∧ j.exhausted = true)

/-- What is due of a join is what the lookahead and the join itself owe. -/
theorem due_iff_owes : Due tables rows condition p due now ↔
    Owes (Join.Supply tables rows condition p) p due now := by
  constructor
  · intro h
    cases h with
    | idle hgives => exact ⟨rfl, .idle ⟨_, rfl, hgives⟩⟩
    | ready hgives => exact ⟨rfl, .ready ⟨_, rfl, hgives⟩⟩
    | held hgives => exact ⟨rfl, .held ⟨_, rfl, hgives⟩⟩
  · obtain ⟨⟨source, selection, ahead⟩, s⟩ := now
    rintro ⟨rfl, hdue⟩
    dsimp only at hdue
    cases hdue with
    | idle h =>
      obtain ⟨j, rfl, hgives⟩ := h
      exact .idle hgives
    | ready h =>
      obtain ⟨j, rfl, hgives⟩ := h
      exact .ready hgives
    | held h =>
      obtain ⟨j, rfl, hgives⟩ := h
      exact .held hgives

theorem Due.next_run (h : Due tables rows condition p due now) :
    GivesOut tables rows condition p due (next.run now) := by
  obtain ⟨hanswer, howes⟩ := (due_iff_owes.1 h).next_run Join.supplies
  refine ⟨hanswer, due_iff_owes.2 howes, ?_⟩
  rintro rfl
  cases h with
  | @idle due j s b hgives =>
    obtain ⟨j', s', hproduce, hpasses⟩ := hgives.produce_run b
    have hnext := run_next ⟨.join j, p, ⟨none, b, none⟩⟩ s
    simp only [Lookahead.next_of_none, hproduce] at hnext
    rw [hnext]
    exact ⟨j', rfl, hpasses.exhausted rfl⟩

/-- What is due does not depend on work that leaves the rows alone. -/
theorem Due.spared {q : Query} (h : Due tables rows condition p due (q, s))
    {work : Tablespace → Tablespace} (hwork : Tablespace.Spares tables rows work) :
    Due tables rows condition p due (q, work s) := by
  cases h with
  | idle hj => exact .idle (hj.spared hwork)
  | ready hj => exact .ready (hj.spared hwork)
  | held hj => exact .held (hj.spared hwork)

/-- The rows to come are the items up to the first error. -/
theorem Due.rowsWithin_run {fuel : Nat} (h : Due tables rows condition p due now)
    (hfuel : due.length < fuel) : ((rowsWithin fuel).run now).1 = due.mapM id := by
  induction due generalizing now fuel with
  | nil =>
    obtain ⟨fuel, rfl⟩ : ∃ k, fuel = k + 1 := ⟨fuel - 1, by simp at hfuel; omega⟩
    obtain ⟨hanswer, -, -⟩ := h.next_run
    have hnext : next.run now = (.ok none, (next.run now).2) := Prod.ext hanswer rfl
    rw [rowsWithin, Action.run_bind_ok hnext]
    rfl
  | cons item due ih =>
    obtain ⟨fuel, rfl⟩ : ∃ k, fuel = k + 1 := ⟨fuel - 1, by simp at hfuel; omega⟩
    obtain ⟨hanswer, hdue, -⟩ := h.next_run
    cases item with
    | error e =>
      have hnext : next.run now = (.error e, (next.run now).2) := Prod.ext hanswer rfl
      rw [rowsWithin, Action.run_bind_error hnext]
      rfl
    | ok row =>
      have hnext : next.run now = (.ok (some row), (next.run now).2) := Prod.ext hanswer rfl
      rw [rowsWithin, Action.run_bind_ok hnext]
      simp only
      rw [Action.run_map, ih hdue (by simpa using hfuel), List.mapM_cons]
      cases due.mapM id <;> rfl

/-- A new query over a join is due to give out what the join has yet to make. -/
theorem due_of_makes (p : Option Predicate) (hover : Join.Over tables rows condition j s)
    (h : Join.Makes tables rows condition j later)
    (hbound : later.length < Join.bound tables rows) :
    Due tables rows condition p (Join.items tables condition p later) (⟨.join j, p, {}⟩, s) :=
  .idle ⟨later, hover, h, hbound, rfl⟩

/-- The rows of a query over a join are the combinations that the predicates accept. -/
theorem rows_run (p : Option Predicate) (hover : Join.Over tables rows condition j s)
    (h : Join.Makes tables rows condition j later)
    (hbound : later.length < Join.bound tables rows) :
    (Query.rows.run (⟨.join j, p, {}⟩, s)).1 =
      sift (Join.judge condition p) (Join.joined tables later) := by
  have hfuel : rowBound ⟨.join j, p, {}⟩ s = Join.bound tables rows + 2 := by
    rw [← hover.combinations]
    rfl
  unfold Query.rows
  rw [Action.run_bind_ok (Action.run_get _)]
  have hlength := Join.length_items_le tables condition p later
  simp only [hfuel]
  rw [(due_of_makes p hover h hbound).rowsWithin_run (by omega), sift_eq_mapM]
  rfl

end Query

end PageDb
