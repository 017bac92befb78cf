import PageDb.Proofs.Query.Drain
import PageDb.Proofs.Table.Creation
import PageDb.Query.Cursor

/-!
Draining a scan.

Whatever its plan is, a scan has a list of items yet to give out: `Scan.Gives` says which, and making
a row takes the first of them off.  A scan of every row and a filter walk through the table; a
comparison of constants turns into one of these or ends the scan at once; a lookup gives out one item
at most.
-/

namespace PageDb

/-- A selection that compares constants of different kinds, so that it has no answer for any row. -/
def Predicate.Unanswerable (p : Option Predicate) : Prop :=
  ∃ c e, p = some (.compare c) ∧ c.hasColumn = false ∧ c.evaluate none = .error e

/-- A constant has its value with and without a row. -/
theorem Operand.value_of_constant {o : Operand} (h : o.isColumn = false) (row : Option JointRow) :
    o.value row = o.value none := by
  cases o with
  | column name => cases h
  | _ => rfl

/-- A comparison of constants has the same answer with and without a row. -/
theorem Comparison.evaluate_of_constants {c : Comparison} (h : c.hasColumn = false)
    (row : Option JointRow) : c.evaluate row = c.evaluate none := by
  obtain ⟨left, relation, right⟩ := c
  obtain ⟨hleft, hright⟩ := Bool.or_eq_false_iff.1 h
  simp only [evaluate, left.value_of_constant hleft, right.value_of_constant hright]

namespace Scan

/-- What a selection makes of rows, one after the other: a row is given out if the selection is true of
it, passed over if it is false or unknown, and replaced by the error if it fails. -/
def judged (t : Table) (p : Option Predicate) (list : List Row) : List (Result JointRow) :=
  (list.map t.jointRow).filterMap (verdict (Predicate.accepts p))

variable {t : Table} {p : Option Predicate}

/-- What becomes of a row is decided by the answer of the selection. -/
theorem judged_eq_filterMap (t : Table) (p : Option Predicate) (list : List Row) :
    judged t p list = list.filterMap fun row =>
      match p.elim (.ok .yes) fun p => p.evaluate (some (t.jointRow row)) with
      | .ok .yes => some (.ok (t.jointRow row))
      | .ok _ => none
      | .error e => some (.error e) := by
  rw [judged, List.filterMap_map]
  refine List.filterMap_congr fun row _ => ?_
  cases p with
  | none => rfl
  | some p =>
    simp only [Function.comp_apply, verdict, Predicate.accepts, Option.elim_some]
    cases p.evaluate (some (t.jointRow row)) with
    | error e => rfl
    | ok truth => cases truth <;> rfl

theorem judged_cons (t : Table) (p : Option Predicate) (row : Row) (list : List Row) :
    judged t p (row :: list) =
      match Predicate.accepts p (t.jointRow row) with
      | .ok true => .ok (t.jointRow row) :: judged t p list
      | .ok false => judged t p list
      | .error e => .error e :: judged t p list := by
  simp only [judged, List.map_cons, List.filterMap_cons, verdict]
  rcases Predicate.accepts p (t.jointRow row) with e | b
  · rfl
  · cases b <;> rfl

/-- A selection that has the same answer for all rows takes all of them or none. -/
theorem judged_of_accepts {accepted : Bool} (h : ∀ row, Predicate.accepts p row = .ok accepted)
    (list : List Row) : judged t p list = if accepted then judged t none list else [] := by
  induction list with
  | nil => cases accepted <;> rfl
  | cons row list ih =>
    rw [judged_cons, judged_cons, h, ih]
    cases accepted <;> rfl

/-! ## Walking through the table -/

variable {tables : List Table} {rows : Table → SortedMap Entry Row} {scan : Scan} {s : Tablespace}
  {rest : List (Entry × Row)}

theorem run_setPlan (plan : ScanPlan) (scan : Scan) (s : Tablespace) :
    (setPlan plan).run (scan, s) = (.ok (), ({ scan with plan := plan }, s)) := rfl

/-- A scan of a table, where the tables hold the given rows. -/
structure Over (tables : List Table) (rows : Table → SortedMap Entry Row) (t : Table) (scan : Scan)
    (s : Tablespace) : Prop where
  table : scan.walk.table = t
  holds : Tablespace.Holds tables rows s

/-- A scan of a table that has yet to walk through some bindings. -/
structure Before (tables : List Table) (rows : Table → SortedMap Entry Row) (t : Table)
    (rest : List (Entry × Row)) (scan : Scan) (s : Tablespace) : Prop extends
    Over tables rows t scan s where
  ahead : scan.walk.Ahead (rows t) rest

/-- The next row is the first one that the scan has yet to walk through. -/
theorem nextRow_run (hapart : Table.AllApart tables) (ht : t ∈ tables)
    (h : Before tables rows t rest scan s) :
    ∃ walk s', nextRow.run (scan, s) =
        (.ok (rest.head?.map Prod.snd), ({ scan with walk := walk }, s')) ∧
      Before tables rows t rest.tail { scan with walk := walk } s' := by
  obtain ⟨⟨rfl, hholds⟩, hahead⟩ := h
  obtain ⟨walk, s', hrun, hholds', htable, hahead'⟩ := Walk.nextRow_run hholds hapart ht hahead
  refine ⟨walk, s', ?_, ⟨htable, hholds'⟩, hahead'⟩
  rw [nextRow, Moving.run_part, hrun]

/-- What a scan leaves behind that has given out the first of the items that a selection makes of the
rows to come: the others, or nothing more to do. -/
def Leaves (tables : List Table) (rows : Table → SortedMap Entry Row) (t : Table)
    (q : Option Predicate) (plan : ScanPlan) (items : List (Result JointRow)) (scan : Scan)
    (s : Tablespace) : Prop :=
  Over tables rows t scan s ∧
    (items = [] ∧ scan.plan = .done ∨
      scan.plan = plan ∧ ∃ rest, Before tables rows t rest scan s ∧
        judged t q (rest.map Prod.snd) = items.tail)

/-- Looking for a row that a selection accepts finds the first item that the selection makes of the
rows to come. -/
theorem nextAccepted_run (hapart : Table.AllApart tables) (ht : t ∈ tables) (q : Option Predicate)
    (h : Before tables rows t rest scan s) {fuel : Nat} (hfuel : rest.length < fuel) :
    ∃ scan' s', (nextAccepted q fuel).run (scan, s) =
        (Moving.answer (judged t q (rest.map Prod.snd)).head?, (scan', s')) ∧
      Leaves tables rows t q scan.plan (judged t q (rest.map Prod.snd)) scan' s' := by
  induction rest generalizing scan s fuel with
  | nil =>
    obtain ⟨fuel, rfl⟩ : ∃ k, fuel = k + 1 := ⟨fuel - 1, by simp at hfuel; omega⟩
    obtain ⟨walk, s', hrow, hbefore⟩ := nextRow_run hapart ht h
    refine ⟨⟨walk, .done⟩, s', ?_, ⟨hbefore.table, hbefore.holds⟩, .inl ⟨rfl, rfl⟩⟩
    rw [nextAccepted, Action.run_bind_ok hrow]
    rfl
  | cons b rest ih =>
    obtain ⟨fuel, rfl⟩ : ∃ k, fuel = k + 1 := ⟨fuel - 1, by simp at hfuel; omega⟩
    obtain ⟨walk, s', hrow, hbefore⟩ := nextRow_run hapart ht h
    have htable : walk.table = t := hbefore.table
    rw [nextAccepted, Action.run_bind_ok hrow]
    simp only [List.head?_cons, Option.map_some, List.map_cons, judged_cons]
    rw [Action.run_bind_ok (Moving.run_mover _ s')]
    simp only [htable]
    cases haccepts : Predicate.accepts q (t.jointRow b.2) with
    | error e =>
      refine ⟨_, s', Action.run_bind_error (Action.run_lift _ _), hbefore.toOver, .inr ⟨rfl, ?_⟩⟩
      exact ⟨rest, hbefore, rfl⟩
    | ok accepted =>
      rw [Action.run_bind_ok (Action.run_lift _ _)]
      cases accepted with
      | false => exact ih hbefore (by simpa using hfuel)
      | true => exact ⟨_, s', rfl, hbefore.toOver, .inr ⟨rfl, rest, hbefore, rfl⟩⟩

/-- A scan looks at no more rows than there are. -/
theorem next_run (hapart : Table.AllApart tables) (ht : t ∈ tables) (q : Option Predicate)
    (h : Before tables rows t rest scan s) :
    ∃ scan' s', (next q).run (scan, s) =
        (Moving.answer (judged t q (rest.map Prod.snd)).head?, (scan', s')) ∧
      Leaves tables rows t q scan.plan (judged t q (rest.map Prod.snd)) scan' s' := by
  have hcount : (scan.walk.table.store s).rowCount = (rows t).size := by
    rw [h.table, h.holds.rowCount ht]
  have hlength := h.ahead.length_le
  rw [next, Action.run_bind_ok (Action.run_get (scan, s))]
  simp only [hcount]
  exact nextAccepted_run hapart ht q h (by omega)

/-! ## What a scan has yet to give out -/

/-- What looking a row up gives out. -/
def found (t : Table) (rows : SortedMap Entry Row) (p : Option Predicate) (constant : Operand) :
    List (Result JointRow) :=
  match constant.toEntry t.keyType with
  | .error e => [.error e]
  | .ok key => judged t p (rows.get? key).toList

/-- The items that a scan has yet to give out, by its plan.  A lookup answers only to the first call. -/
inductive Gives (tables : List Table) (rows : Table → SortedMap Entry Row) (t : Table)
    (p : Option Predicate) : (first : Bool) → List (Result JointRow) → Scan → Tablespace → Prop
  | everyRow {b scan s rest} (hplan : scan.plan = .everyRow) (h : Before tables rows t rest scan s) :
      Gives tables rows t p b (judged t none (rest.map Prod.snd)) scan s
  | filter {b scan s rest} (hplan : scan.plan = .filter) (h : Before tables rows t rest scan s) :
      Gives tables rows t p b (judged t p (rest.map Prod.snd)) scan s
  | constant {b scan s rest c truth} (hplan : scan.plan = .constant) (hp : p = some (.compare c))
      (htruth : c.evaluate none = .ok truth) (h : Before tables rows t rest scan s) :
      Gives tables rows t p b (if truth.isTrue then judged t none (rest.map Prod.snd) else []) scan s
  | lookup {scan s constant} (hplan : scan.plan = .lookup constant) (h : Over tables rows t scan s) :
      Gives tables rows t p true (found t (rows t) p constant) scan s
  | done {b scan s} (hplan : scan.plan = .done) (h : Over tables rows t scan s) :
      Gives tables rows t p b [] scan s

/-- Looking a row up answers what the table holds. -/
theorem lookup_run (hapart : Table.AllApart tables) (ht : t ∈ tables)
    (h : Over tables rows t scan s) (constant : Operand) :
    ∃ s', (lookup p constant).run (scan, s) =
        (Moving.answer (found t (rows t) p constant).head?, (scan, s')) ∧
      Tablespace.Holds tables rows s' := by
  rw [lookup, Action.run_bind_ok (Moving.run_mover scan s)]
  simp only [h.table]
  unfold found
  rw [show t.schema.primaryColumn.type = t.keyType from rfl]
  cases hkey : constant.toEntry t.keyType with
  | error e => exact ⟨s, Action.run_bind_error (Action.run_lift _ _), h.holds⟩
  | ok key =>
    obtain ⟨s', hfind, hholds⟩ := h.holds.find? hapart ht key
    refine ⟨s', ?_, hholds⟩
    have hstill : (Moving.still (t.find? key) : Moving Scan _).run (scan, s) =
        (.ok ((rows t).get? key), (scan, s')) := by
      rw [Moving.run_still, hfind]
    rw [Action.run_bind_ok (Action.run_lift _ _), Action.run_bind_ok hstill]
    dsimp only
    cases (rows t).get? key with
    | none => rfl
    | some row =>
      simp only [Option.toList_some, judged_cons]
      cases haccepts : Predicate.accepts p (t.jointRow row) with
      | error e => exact Action.run_bind_error (Action.run_lift _ _)
      | ok accepted =>
        rw [Action.run_bind_ok (Action.run_lift _ _)]
        cases accepted <;> rfl

/-- At most one row is found. -/
theorem tail_found (t : Table) (rows : SortedMap Entry Row) (p : Option Predicate)
    (constant : Operand) : (found t rows p constant).tail = [] := by
  unfold found
  cases constant.toEntry t.keyType with
  | error e => rfl
  | ok key =>
    dsimp only
    cases rows.get? key with
    | none => rfl
    | some row =>
      simp only [Option.toList_some, judged_cons]
      rcases Predicate.accepts p (t.jointRow row) with e | _ | _ <;> rfl

/-- What a walk leaves behind is what its plan has yet to give out. -/
theorem Leaves.gives {q : Option Predicate} {plan : ScanPlan} {items : List (Result JointRow)}
    (h : Leaves tables rows t q plan items scan s)
    (hplan : ∀ b rest, scan.plan = plan → Before tables rows t rest scan s →
      Gives tables rows t p b (judged t q (rest.map Prod.snd)) scan s) (b : Bool) :
    Gives tables rows t p b items.tail scan s := by
  obtain ⟨hover, ⟨rfl, hdone⟩ | ⟨hsame, rest, hbefore, htail⟩⟩ := h
  · exact .done hdone hover
  · rw [← htail]
    exact hplan b rest hsame hbefore

/-- Making a row takes the first item off, whatever the plan is. -/
theorem Gives.produce_run (hapart : Table.AllApart tables) (ht : t ∈ tables) {b : Bool}
    {items : List (Result JointRow)} (h : Gives tables rows t p b items scan s) :
    ∃ scan' s', (produce p b).run (scan, s) = (Moving.answer items.head?, (scan', s')) ∧
      ∀ c, Gives tables rows t p c items.tail scan' s' := by
  unfold produce
  rw [Action.run_bind_ok (Moving.run_mover scan s)]
  cases h with
  | everyRow hplan h =>
    obtain ⟨scan', s', hrun, hleaves⟩ := next_run hapart ht none h
    simp only [hplan]
    exact ⟨scan', s', hrun, hleaves.gives fun _ _ hsame => .everyRow (hsame.trans hplan)⟩
  | filter hplan h =>
    obtain ⟨scan', s', hrun, hleaves⟩ := next_run hapart ht p h
    simp only [hplan]
    exact ⟨scan', s', hrun, hleaves.gives fun _ _ hsame => .filter (hsame.trans hplan)⟩
  | @constant _ _ _ rest c truth hplan hp htruth h =>
    subst hp
    have htruth' : (Predicate.compare c).evaluate none = .ok truth := htruth
    simp only [hplan, htruth']
    rw [Action.run_bind_ok (Action.run_lift _ _), Action.run_bind_ok (Action.run_pure _ _)]
    cases truth.isTrue with
    | false => exact ⟨⟨scan.walk, .done⟩, s, rfl, fun _ => .done rfl ⟨h.table, h.holds⟩⟩
    | true =>
      have hbefore : Before tables rows t rest ⟨scan.walk, .everyRow⟩ s :=
        ⟨⟨h.table, h.holds⟩, h.ahead⟩
      obtain ⟨scan', s', hrun, hleaves⟩ := next_run hapart ht none hbefore
      simp only [if_true]
      rw [Action.run_bind_ok (run_setPlan .everyRow scan s)]
      exact ⟨scan', s', hrun, hleaves.gives fun _ _ hsame => .everyRow hsame⟩
  | @lookup _ _ constant hplan h =>
    have hover : Over tables rows t ⟨scan.walk, .done⟩ s := ⟨h.table, h.holds⟩
    obtain ⟨s', hrun, hholds⟩ := lookup_run (p := p) hapart ht hover constant
    simp only [hplan]
    rw [Action.run_bind_ok (run_setPlan .done scan s), if_pos trivial, tail_found]
    exact ⟨⟨scan.walk, .done⟩, s', hrun, fun _ => .done rfl ⟨h.table, hholds⟩⟩
  | done hplan h =>
    simp only [hplan]
    exact ⟨scan, s, rfl, fun c => .done hplan h⟩

theorem run_source (p : Option Predicate) (b : Bool) (scan : Scan) (s : Tablespace) :
    (Source.produce p b).run (.scan scan, s) = (((produce p b).run (scan, s)).1,
      (.scan ((produce p b).run (scan, s)).2.1, ((produce p b).run (scan, s)).2.2)) := rfl

/-- What a scan has yet to give out, as a source of a query. -/
def Supply (tables : List Table) (rows : Table → SortedMap Entry Row) (t : Table)
    (p : Option Predicate) (b : Bool) (items : List (Result JointRow)) (now : Source × Tablespace) :
    Prop :=
  ∃ scan, now.1 = .scan scan ∧ Gives tables rows t p b items scan now.2

theorem supplies (hapart : Table.AllApart tables) (ht : t ∈ tables) :
    Lookahead.Supplies (Source.produce p) (Supply tables rows t p) where
  answers := by
    rintro b items ⟨_, s⟩ ⟨scan, rfl, hgives⟩
    obtain ⟨scan', s', hrun, -⟩ := hgives.produce_run hapart ht
    rw [run_source, hrun]
  later := by
    rintro b c items ⟨_, s⟩ ⟨scan, rfl, hgives⟩ -
    obtain ⟨scan', s', hrun, hlater⟩ := hgives.produce_run hapart ht
    rw [run_source, hrun]
    exact ⟨scan', rfl, hlater c⟩

/-- What is to come does not depend on work that leaves the rows alone. -/
theorem Supply.spared {b : Bool} {items : List (Result JointRow)} {source : Source}
    (h : Supply tables rows t p b items (source, s)) {work : Tablespace → Tablespace}
    (hwork : Tablespace.Spares tables rows work) :
    Supply tables rows t p b items (source, work s) := by
  obtain ⟨scan, rfl, hgives⟩ := h
  refine ⟨scan, rfl, ?_⟩
  have hbefore {rest : List (Entry × Row)} (h : Before tables rows t rest scan s) :
      Before tables rows t rest scan (work s) := ⟨⟨h.table, hwork s h.holds⟩, h.ahead⟩
  cases hgives with
  | everyRow hplan h => exact .everyRow hplan (hbefore h)
  | filter hplan h => exact .filter hplan (hbefore h)
  | constant hplan hp htruth h => exact .constant hplan hp htruth (hbefore h)
  | lookup hplan h => exact .lookup hplan ⟨h.table, hwork s h.holds⟩
  | done hplan h => exact .done hplan ⟨h.table, hwork s h.holds⟩

end Scan

/-! ## What a plan gives out -/

/-- Which plan a table chooses for which selection. -/
inductive Table.Chooses (t : Table) : Option Predicate → ScanPlan → Prop
  | everyRow {p} (h : ∀ row, Predicate.accepts p row = .ok true) : Chooses t p .everyRow
  | constant {c} (h : c.hasColumn = false) : Chooses t (some (.compare c)) .constant
  | lookup {c constant} (hrelation : c.relation = .eq) (hkey : t.keyConstant? c = some constant)
      (hnull : constant ≠ .null) : Chooses t (some (.compare c)) (.lookup constant)
  | filter {p} : Chooses t p .filter

theorem Table.chooses_planFor (t : Table) (p : Option Predicate) : t.Chooses p (t.planFor p) := by
  unfold Table.planFor
  split
  · exact .everyRow fun _ => rfl
  · exact .everyRow fun _ => rfl
  · rename_i c
    cases hcolumn : c.hasColumn with
    | false => exact .constant hcolumn
    | true =>
      simp only [Bool.not_true, Bool.false_eq_true, if_false]
      split
      · exact .filter
      · rename_i hrelation
        split
        · exact .filter
        · exact .filter
        · rename_i constant hnull hkey
          exact .lookup (Decidable.not_not.1 hrelation) hkey hnull
  · exact .filter

namespace Scan

/-- What a new scan gives out, by its plan. -/
def due (t : Table) (rows : SortedMap Entry Row) (p : Option Predicate) : List (Result JointRow) :=
  match t.planFor p with
  | .lookup constant => found t rows p constant
  | _ => judged t p rows.values

variable {tables : List Table} {rows : Table → SortedMap Entry Row} {t : Table} {s : Tablespace}
  {p : Option Predicate}

/-- A scan that looks no single row up judges all of them. -/
theorem due_eq_judged {rows : SortedMap Entry Row} (h : ∀ constant, t.planFor p ≠ .lookup constant) :
    due t rows p = judged t p rows.values := by
  unfold due
  split
  · rename_i constant hplan
    exact absurd hplan (h constant)
  · rfl

/-- A new scan has everything to give out, unless its selection has no answer. -/
theorem gives_due (h : Tablespace.Holds tables rows s) (hanswers : ¬ Predicate.Unanswerable p) :
    Gives tables rows t p true (due t (rows t) p) ⟨t.walk, t.planFor p⟩ s := by
  have hover (plan : ScanPlan) : Over tables rows t ⟨t.walk, plan⟩ s := ⟨rfl, h⟩
  have hbefore (plan : ScanPlan) : Before tables rows t (rows t).toList ⟨t.walk, plan⟩ s :=
    ⟨hover plan, Walk.ahead_walk t (rows t)⟩
  have hchooses := t.chooses_planFor p
  unfold due
  generalize hplan : t.planFor p = plan at hchooses ⊢
  cases hchooses with
  | everyRow haccepts =>
    rw [judged_of_accepts haccepts]
    exact .everyRow rfl (hbefore _)
  | @constant c hcolumn =>
    cases htruth : c.evaluate none with
    | error e => exact absurd ⟨c, e, rfl, hcolumn, htruth⟩ hanswers
    | ok truth =>
      have haccepts (row : JointRow) : Predicate.accepts (some (.compare c)) row = .ok truth.isTrue := by
        simp only [Predicate.accepts, Predicate.evaluate, c.evaluate_of_constants hcolumn, htruth]
        rfl
      simp only
      rw [judged_of_accepts haccepts]
      exact .constant rfl rfl htruth (hbefore _)
  | lookup => exact .lookup rfl (hover _)
  | filter => exact .filter rfl (hbefore _)

end Scan

/-- Draining a query over one table gives out what its plan says. -/
theorem Query.drains_due {tables : List Table} {rows : Table → SortedMap Entry Row} {s : Tablespace}
    (h : Tablespace.Holds tables rows s) (hapart : Table.AllApart tables) {t : Table} (ht : t ∈ tables)
    {p : Option Predicate} (hanswers : ¬ Predicate.Unanswerable p) :
    Moving.Drains Query.next tables rows ((Query.ofTable t).withSelection p, s)
      (Scan.due t (rows t) p) :=
  drains_of_supplies (Scan.supplies hapart ht) (fun _ hspares _ _ _ _ hP => hP.spared hspares)
    ⟨⟨t.walk, t.planFor p⟩, rfl, Scan.gives_due h hanswers⟩

/-- Draining a query that does not look a single row up goes through the rows in the order of their keys,
and gives out those on which the selection is true and the error of each on which it fails.  Of a
selection that compares constants it is only asked that it has an answer. -/
theorem Query.drains_ofTable {tables : List Table} {rows : Table → SortedMap Entry Row}
    {s : Tablespace} (h : Tablespace.Holds tables rows s) (hapart : Table.AllApart tables) {t : Table}
    (ht : t ∈ tables) {p : Option Predicate} (hplan : ∀ constant, t.planFor p ≠ .lookup constant)
    (hanswers : ¬ Predicate.Unanswerable p) :
    Moving.Drains Query.next tables rows ((Query.ofTable t).withSelection p, s)
        ((rows t).values.filterMap fun row =>
          match p.elim (.ok .yes) fun p => p.evaluate (some (t.jointRow row)) with
          | .ok .yes => some (.ok (t.jointRow row))
          | .ok _ => none
          | .error e => some (.error e)) ∧
      (rows t).values.Pairwise fun a b =>
        Ord.compare (a.keyAt t.primaryIndex) (b.keyAt t.primaryIndex) = .lt := by
  rw [← Scan.judged_eq_filterMap, ← Scan.due_eq_judged hplan]
  exact ⟨drains_due h hapart ht hanswers, h.increasing_values ht⟩

/-- A table whose rows may have a note. -/
def noted : Table where
  number := 1
  database := "db"
  name := "u"
  schema := ⟨[({ name := "x", type := .int } : Column).asPrimary, { name := "note", type := .text }], 0⟩

/-- The table with some rows, one of which has a note. -/
def notedSpace : Tablespace :=
  Table.runAll
    [(noted, .insert [.int 7, .null] false), (noted, .insert [.int 1, .null] false),
      (noted, .insert [.int 3, .text "seen"] false), (noted, .insert [.int 5, .null] false)]
    (({} : Tablespace).create {} noted)

theorem orderly_noted : Tablespace.Orderly [noted] notedSpace :=
  ((Tablespace.orderly_nil {}).create Directory.ordered_empty ⟨_, rfl, rfl⟩ (by simp) {}).runAll
    (by simp [TableCall.Typed])

/-- Rows with a key above 2, or with a note that is a number. -/
def numbered : Predicate :=
  .or (.compare ⟨.column "x", .gt, .number (.ofInt .double 2)⟩)
    (.compare ⟨.column "note", .eq, .number (.ofInt .double 3)⟩)

/-- Of the first row the answer is not known, and of the second one there is none. -/
theorem Query.drains_ofTable_noted :
    (∀ constant, noted.planFor (some numbered) ≠ .lookup constant) ∧
      ¬ Predicate.Unanswerable (some numbered) ∧
      ∃ items, Moving.Drains Query.next [noted] (fun t => t.contents notedSpace)
          ((Query.ofTable noted).withSelection (some numbered), notedSpace) items ∧
        items.map (Except.map JointRow.entries) =
          [.error (.typeMismatch .text .number), .ok [.int 5, .null], .ok [.int 7, .null]] := by
  have hplan (constant : Operand) : noted.planFor (some numbered) ≠ .lookup constant := nofun
  have hanswers : ¬ Predicate.Unanswerable (some numbered) := by
    rintro ⟨_, _, ⟨⟩, _⟩
  exact ⟨hplan, hanswers, _,
    (Query.drains_ofTable orderly_noted.holds orderly_noted.apart (by simp) hplan hanswers).1,
    by decide +kernel⟩

end PageDb
