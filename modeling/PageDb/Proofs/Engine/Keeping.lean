import PageDb.Proofs.Engine.TwoPhase

/-!
What the work of a statement keeps.

A property of the tables that adding, deleting and changing rows keeps, and reading them, is kept by
the work of every statement that changes or reads rows.  The pins are such a property, and so is that
the tables are orderly.
-/

namespace PageDb

open PageDb.Action (Keeps Same)

/-- Whether the work of an insert, a delete or an update of the table keeps a property. -/
structure Table.WorkKeeps (t : Table) (pin : Bool) (I : Tablespace → Prop) : Prop where
  insert : ∀ names rows, Keeps I (t.insertEach names pin rows) fun _ => True
  delete : ∀ p, Keeps I (t.deleteWhere p pin) fun _ => True
  update : ∀ name value p, Keeps I (t.updateWhere name value p pin) fun _ => True

namespace Table

variable {t : Table} {pin : Bool} {I : Tablespace → Prop} {tables : List Table} {may : Nat → Prop}
  {rows : SortedMap Entry Row}

/-- What adding one row keeps, adding several keeps. -/
theorem keeps_insertEach (h : ∀ names literals,
    Keeps I (t.insertLiterals names literals pin) fun _ => True) (names : Option (List String))
    (rows : List (List String)) : Keeps I (t.insertEach names pin rows) fun _ => True := by
  induction rows with
  | nil => exact .pure trivial
  | cons literals rest ih => exact .bind (h names literals) fun _ _ => ih

/-- What the operations on single rows keep, the statements that write keep. -/
theorem Upholds.workKeeps {K : Entry → Prop} {Q : Row → Prop} (h : t.Upholds pin I K Q) :
    t.WorkKeeps pin I where
  insert := keeps_insertEach h.insertLiterals
  delete := h.deleteWhere
  update := h.updateWhere

theorem Steady.workKeeps (h : t.Steady I) (pin : Bool) : t.WorkKeeps pin I :=
  (h.upholds pin).workKeeps

theorem workKeeps_pins {held : Nat → Nat → Prop} (hmay : pin = true → may t.number) :
    t.WorkKeeps pin (Tablespace.Pins held may) where
  insert names rows := (Engine.respects_insertEach (writesRespect_pins hmay) names rows).keeps
  delete p :=
    (respects_deleteWhere Tablespace.readsRespect_pins trivial (writesRespect_pins hmay) p).keeps
  update name value p := (respects_updateWhere Tablespace.readsRespect_pins trivial
    (writesRespect_pins hmay) name value p).keeps

theorem workKeeps_covers (ht : t ∈ tables) (hproper : t.schema.Proper) (hmay : may t.number) :
    t.WorkKeeps true (t.Covers tables may rows) :=
  (upholds_covers ht hproper hmay).workKeeps

end Table

namespace Engine

variable {e : Engine} {I : Tablespace → Prop} {statement : Statement} {client : Session}
  {tables : List Table}

/-- A write keeps what the work on its table keeps. -/
theorem keeps_write (hwrites : writes statement = true)
    (hwork : ∀ t ∈ tables, t.WorkKeeps client.inTransaction I) (h : I e.space) :
    I ((perform client statement tables).run e).2.space := by
  cases tables with
  | nil =>
    cases statement with
    | insert | delete | update => exact h
    | _ => cases hwrites
  | cons t rest =>
    have ht := hwork t List.mem_cons_self
    cases statement with
    | insert name columns rows =>
      simp only [perform, Action.run_bind_pure, onSpace, Action.run_onPart]
      exact (ht.insert columns rows e.space h).1
    | delete name filter =>
      simp only [perform, Action.run_bind_pure, onSpace, Action.run_onPart]
      exact (ht.delete filter e.space h).1
    | update name column value filter =>
      simp only [perform, Action.run_bind_pure, onSpace, Action.run_onPart]
      exact (ht.update column value filter e.space h).1
    | _ => cases hwrites

/-- A `select` keeps what reading its tables keeps. -/
theorem keeps_select {P : Table → Prop} (hreads : Tablespace.ReadsRespect P (Same I))
    {names : List String} (hfound : ∀ tables, e.tables client.database names = .ok tables →
      ∀ t ∈ tables, P t) (on : Option Predicate) (selectors : List Selector)
    (filter : Option Predicate) (h : I e.space) :
    I ((perform client (.select names on selectors filter) tables).run e).2.space := by
  show I ((collect client.database names on selectors filter).run e).2.space
  cases hnames : names.isEmpty with
  | true =>
    simp only [collect, hnames, if_true]
    exact h
  | false =>
    rw [run_collect hnames]
    cases hplan : e.plan client.database names on selectors filter with
    | error failure => exact h
    | ok found =>
      obtain ⟨query, projection⟩ := found
      have halike : Moving.Alike (Query.Within P) (Same I) (query, e.space) (query, e.space) :=
        ⟨rfl, plan_within hfound hplan, rfl, h⟩
      exact (Query.respects_rows hreads _ _ halike).2.2.2.2

/-- The pins of the tables that a statement may not write are kept. -/
theorem pins_perform {held : Nat → Nat → Prop} {may : Nat → Prop} (hkeeps : keepsTables statement)
    (hmay : client.inTransaction = true → writes statement = true → ∀ t ∈ tables, may t.number)
    (hnew : ∀ page, ¬ held e.nextTable page) (h : e.space.Pins held may) :
    ((perform client statement tables).run e).2.space.Pins held may := by
  have hwrite (hwrites : writes statement = true) :
      ((perform client statement tables).run e).2.space.Pins held may :=
    keeps_write hwrites (fun t ht => Table.workKeeps_pins fun hin => hmay hin hwrites t ht) h
  cases statement with
  | dropTable => cases hkeeps
  | createTable name schema =>
    simp only [perform, Action.run_bind_pure, run_createTable]
    split
    · exact h
    · exact h.addStore hnew _ _ _
  | select names on selectors filter =>
    exact keeps_select Tablespace.readsRespect_pins (fun _ _ _ _ => trivial) on selectors filter h
  | _ => exact hwrite rfl

end Engine

end PageDb
