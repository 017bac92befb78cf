import PageDb.Engine.Session
import PageDb.Proofs.Query.Separation

/-!
The work of a statement has nothing to do with tables that it does not work on.

Inserting, deleting and updating work on the table whose lock was asked for.  Dropping and selecting
go by name again, so what they work on is what the name leads to when the work begins.
-/

namespace PageDb

namespace Engine

/-- Engines that differ at most in one store, with what that store is in each of them. -/
structure Differ (n : Nat) (store store' : Option Store) (e e' : Engine) : Prop where
  rest : e' = { e with space := e'.space }
  space : Tablespace.Differ n store store' e.space e'.space

/-- Whether a statement finds its tables by name a second time when it does its work. -/
def looksUpAgain : Statement → Bool
  | .dropTable _ => true
  | .select .. => true
  | _ => false

variable {n : Nat} {store store' : Option Store} {e e' : Engine} {α : Type}

theorem Differ.withSpace (e : Engine) {space space' : Tablespace}
    (h : Tablespace.Differ n store store' space space') :
    Differ n store store' { e with space := space } { e with space := space' } := ⟨rfl, h⟩

theorem respects_onSpace {action : Action Tablespace α}
    (h : action.Respects (Tablespace.Differ n store store')) :
    (onSpace action).Respects (Differ n store store') := by
  apply Action.Respects.onPart h
  · intro e e' he
    exact he.space
  · intro e e' p p' he hp
    rw [he.rest]
    exact .withSpace e hp

/-! ## Tables that were found before -/

theorem respects_insertEach {t : Table} {pin : Bool} {R : Tablespace → Tablespace → Prop}
    (h : t.WritesRespect pin R) (names : Option (List String)) (rows : List (List String)) :
    (t.insertEach names pin rows).Respects R := by
  induction rows with
  | nil => exact .pure _
  | cons literals rest ih =>
    exact .bind (Table.respects_insertLiterals h names literals) fun _ => ih

/-! ## Tables that are found again -/

/-- The query of a `select` and what it selects. -/
def plan (e : Engine) (database : Nat) (names : List String) (on : Option Predicate)
    (selectors : List Selector) (filter : Option Predicate) : Result (Query × Projection) := do
  let query ← e.queryFor database names on
  let projection ← Projection.ofSelectors (query.withSelection filter).headings selectors
  return (query.withSelection filter, projection)

theorem run_collect {names : List String} (hnames : names.isEmpty = false) (e : Engine)
    (database : Nat) (on : Option Predicate) (selectors : List Selector)
    (filter : Option Predicate) :
    (collect database names on selectors filter).run e =
      match e.plan database names on selectors filter with
      | .error failure => (.error failure, e)
      | .ok (query, projection) =>
        ((query.collect.run e.space).1.map fun rows =>
            .rows projection.headers (rows.map projection.apply),
          { e with space := (query.collect.run e.space).2 }) := by
  simp only [collect, hnames, Bool.false_eq_true, if_false, plan]
  rw [Action.run_bind_ok (Action.run_get e)]
  cases e.queryFor database names on with
  | error failure => rfl
  | ok query =>
    rw [Action.run_bind_ok (Action.run_lift (.ok query) e), Result.ok_bind]
    cases Projection.ofSelectors (query.withSelection filter).headings selectors with
    | error failure =>
      rw [Action.run_bind_error (Action.run_lift (.error failure) e), Result.error_bind]
    | ok projection =>
      rw [Action.run_bind_ok (Action.run_lift (.ok projection) e), Result.ok_bind, Action.run_bind]
      rcases hrun : (query.withSelection filter).collect.run e.space with ⟨_ | rows, space⟩
      · simp only [onSpace, Action.run_onPart, pure, Except.pure, hrun, Except.map]
      · simp only [onSpace, Action.run_onPart, pure, Except.pure, hrun, Except.map]
        rfl

theorem run_dropTable (database : Nat) (name : String) (e : Engine) :
    (dropTable database name).run e =
      match e.table database name with
      | .error failure => (.error failure, e)
      | .ok table =>
        ((table.drop.run e.space).1,
          { e with
            databases := e.databases.modify database fun d =>
              { d with tables := (e.database database).tables.erase name }
            space := (table.drop.run e.space).2 }) := by
  simp only [dropTable]
  rw [Action.run_bind_ok (Action.run_get e)]
  cases e.table database name <;> rfl

/-- A plan is for the tables that its names lead to. -/
theorem plan_within {P : Table → Prop} {database : Nat} {names : List String} {on : Option Predicate}
    {selectors : List Selector} {filter : Option Predicate} {query : Query} {projection : Projection}
    (hfound : ∀ tables, e.tables database names = .ok tables → ∀ t ∈ tables, P t)
    (hplan : e.plan database names on selectors filter = .ok (query, projection)) :
    query.Within P := by
  obtain ⟨query', hquery, hplan⟩ := Result.bind_eq_ok.1 hplan
  obtain ⟨projection', -, hplan⟩ := Result.bind_eq_ok.1 hplan
  cases hplan
  obtain ⟨tables, htables, hquery⟩ := Result.bind_eq_ok.1 hquery
  have hwithin := hfound tables htables
  apply Query.Within.withSelection
  split at hquery
  · cases hquery
    exact Query.within_ofTable (hwithin _ List.mem_cons_self)
  · cases hquery
    exact Query.within_ofJoin hwithin on

theorem differ_collect (h : Differ n store store' e e') {database : Nat} {names : List String}
    (hfound : ∀ tables, e.tables database names = .ok tables → ∀ t ∈ tables, t.number ≠ n)
    (on : Option Predicate) (selectors : List Selector) (filter : Option Predicate) :
    ((collect database names on selectors filter).run e).1 =
        ((collect database names on selectors filter).run e').1 ∧
      Differ n store store' ((collect database names on selectors filter).run e).2
        ((collect database names on selectors filter).run e').2 := by
  cases hnames : names.isEmpty with
  | true =>
    simp only [collect, hnames, if_true]
    exact ⟨rfl, h⟩
  | false =>
    have hsame : e'.plan database names on selectors filter =
        e.plan database names on selectors filter := by
      rw [h.rest]
      rfl
    rw [run_collect hnames, run_collect hnames, hsame]
    cases hplan : e.plan database names on selectors filter with
    | error failure => exact ⟨rfl, h⟩
    | ok found =>
      obtain ⟨query, projection⟩ := found
      -- both engines plan the same query, which runs outside the table
      have halike : Moving.Alike (Query.Within fun t => t.number ≠ n)
          (Tablespace.Differ n store store') (query, e.space) (query, e'.space) :=
        ⟨rfl, plan_within hfound hplan, h.space⟩
      obtain ⟨hanswer, -, -, hafter⟩ :=
        Query.respects_rows Tablespace.readsRespect_differ _ _ halike
      refine ⟨congrArg (Except.map _) hanswer, ?_⟩
      dsimp only
      rw [h.rest]
      exact .withSpace e hafter

theorem differ_dropTable (h : Differ n store store' e e') {database : Nat} {name : String}
    (hfound : ∀ t, e.table database name = .ok t → t.number ≠ n) :
    ((dropTable database name).run e).1 = ((dropTable database name).run e').1 ∧
      Differ n store store' ((dropTable database name).run e).2
        ((dropTable database name).run e').2 := by
  have hsame : e'.table database name = e.table database name := by
    rw [h.rest]
    rfl
  rw [run_dropTable, run_dropTable, hsame]
  cases ht : e.table database name with
  | error failure => exact ⟨rfl, h⟩
  | ok t =>
    obtain ⟨hanswer, hafter⟩ := Table.respects_drop (hfound t ht) _ _ h.space
    refine ⟨hanswer, ?_⟩
    dsimp only
    rw [h.rest]
    exact ⟨rfl, hafter⟩

/-! ## New tables -/

theorem run_createTable (database : Nat) (name : String) (schema : Schema) (e : Engine) :
    (createTable database name schema).run e =
      if (e.database database).tables.contains name then (.error (.tableExists name), e)
      else
        let table : Table := ⟨e.nextTable, (e.database database).name, name, schema⟩
        (.ok table,
          { e with
            nextTable := e.nextTable + 1
            space := e.space.addStore e.nextTable
              (e.config.newStore (e.database database).name name)
            databases := e.databases.modify database fun d =>
              { d with tables := (e.database database).tables.insert name table } }) := by
  simp only [createTable, makeTable]
  rw [Action.run_bind, Action.run_bind_ok (Action.run_get e)]
  cases (e.database database).tables.contains name <;> rfl

theorem differ_createTable (h : Differ n store store' e e') (hnew : e.nextTable ≠ n)
    (database : Nat) (name : String) (schema : Schema) :
    ((createTable database name schema).run e).1 = ((createTable database name schema).run e').1 ∧
      Differ n store store' ((createTable database name schema).run e).2
        ((createTable database name schema).run e').2 := by
  obtain ⟨rest, hspace⟩ := h
  have hsame : e'.database database = e.database database := by
    rw [rest]
    rfl
  rw [run_createTable, run_createTable, hsame]
  cases (e.database database).tables.contains name with
  | true => exact ⟨rfl, rest, hspace⟩
  | false =>
    rw [rest]
    refine ⟨rfl, rfl, ?_⟩
    show Tablespace.Differ n store store' (e.space.addStore _ _) (e'.space.addStore _ _)
    rw [Tablespace.addStore, Tablespace.addStore, ← hspace.disk]
    exact hspace.insert hnew _ _

/-! ## All statements -/

/-- A statement has nothing to do with a table that is neither among those it locked nor, if it
looks its tables up again, among those it finds then, nor the one that it creates. -/
theorem differ_perform (h : Differ n store store' e e') {session : Session} {statement : Statement}
    {tables : List Table} (hlocked : ∀ t ∈ tables, t.number ≠ n)
    (hfound : looksUpAgain statement = true → ∀ found,
      e.tables session.database (lockPlan statement).1 = .ok found → ∀ t ∈ found, t.number ≠ n)
    (hnew : e.nextTable ≠ n) :
    ((perform session statement tables).run e).1 = ((perform session statement tables).run e').1 ∧
      Differ n store store' ((perform session statement tables).run e).2
        ((perform session statement tables).run e').2 := by
  have hrest {action : Action Engine Answer} (hrespects : action.Respects (Differ n store store')) :
      (action.run e).1 = (action.run e').1 ∧
        Differ n store store' (action.run e).2 (action.run e').2 := hrespects e e' h
  have hreads := @Tablespace.readsRespect_differ n store store'
  have hwrites {t : Table} (ht : t.number ≠ n) :
      t.WritesRespect session.inTransaction (Tablespace.Differ n store store') :=
    Table.writesRespect_differ ht _
  cases statement with
  | createTable name schema =>
    obtain ⟨hanswer, hafter⟩ := differ_createTable h hnew session.database name schema
    simp only [perform, Action.run_bind_pure]
    exact ⟨congrArg _ hanswer, hafter⟩
  | dropTable name =>
    -- the table that is dropped is found by a second lookup
    have hname (t : Table) (ht : e.table session.database name = .ok t) : t.number ≠ n := by
      apply hfound rfl [t] _ t List.mem_cons_self
      simp [lockPlan, Engine.tables, ht, pure, Except.pure]
    obtain ⟨hanswer, hafter⟩ := differ_dropTable h hname
    simp only [perform, Action.run_bind_pure]
    exact ⟨congrArg _ hanswer, hafter⟩
  | select names on selectors filter => exact differ_collect h (hfound rfl) on selectors filter
  | insert name columns rows =>
    apply hrest
    cases tables with
    | nil => exact .throw _
    | cons t rest =>
      have heach := respects_insertEach (hwrites (hlocked t List.mem_cons_self)) columns rows
      exact .bind (respects_onSpace heach) fun _ => .pure _
  | delete name filter =>
    apply hrest
    cases tables with
    | nil => exact .throw _
    | cons t rest =>
      have ht := hlocked t List.mem_cons_self
      exact .bind (respects_onSpace (Table.respects_deleteWhere hreads ht (hwrites ht) filter))
        fun _ => .pure _
  | update name column value filter =>
    apply hrest
    cases tables with
    | nil => exact .throw _
    | cons t rest =>
      have ht := hlocked t List.mem_cons_self
      have hwhere := Table.respects_updateWhere hreads ht (hwrites ht) column value filter
      exact .bind (respects_onSpace hwhere) fun _ => .pure _

end Engine

end PageDb
