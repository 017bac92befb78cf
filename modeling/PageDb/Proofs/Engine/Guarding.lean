import PageDb.Proofs.Engine.Interleaving

/-!
Locks on the tables that statements touch.

A statement touches a table if another store in its place would show, in the answer or in what the
work leaves behind.  Inserting, deleting and updating touch only the table that they locked.
Selecting and dropping find their tables by name, take the locks, and then find them by name again:
what they touch is locked as long as the names still lead to the same tables.
-/

namespace PageDb

namespace Engine

/-- Giving a table another store. -/
theorem Differ.addStore (e : Engine) (n : Nat) (store : Store) :
    Differ n (e.space.stores.get? n) (some store) e { e with space := e.space.addStore n store } := by
  refine ⟨rfl, rfl, SortedMap.get?_insert_self _ _ _, fun m hm => ?_, rfl⟩
  have hne : compare m n ≠ .eq := fun heq => hm (Std.LawfulEqOrd.eq_of_compare heq)
  exact (SortedMap.get?_insert_of_ne _ _ hne).symm

namespace Work

/-- What the work comes to in an engine. -/
def run (w : Work) (e : Engine) : Result Answer × Engine :=
  (perform (w.engine.session w.session) w.running.statement w.running.tables).run e

/-- Whether the work reads or changes the store of a table: with another store in its place the
answer would differ, or more would differ afterwards than that store. -/
def Touches (w : Work) (n : Nat) : Prop :=
  ∃ store e', Differ n (w.engine.space.stores.get? n) store w.engine e' ∧
    ¬ ((w.run w.engine).1 = (w.run e').1 ∧
      Differ n (w.engine.space.stores.get? n) store (w.run w.engine).2 (w.run e').2)

/-- Whether a statement that finds its tables by name again finds none but those it locked. -/
def Current (w : Work) : Prop :=
  looksUpAgain w.running.statement = true → ∀ found,
    w.engine.tables (w.engine.session w.session).database (lockPlan w.running.statement).1 =
      .ok found → ∀ t ∈ found, t ∈ w.running.tables

/-- A work touches a table if another store in its place changes the answer. -/
theorem touches_of_answer {w : Work} {n : Nat} (store : Store)
    (h : (w.run w.engine).1 ≠
      (w.run { w.engine with space := w.engine.space.addStore n store }).1) : w.Touches n :=
  ⟨_, _, .addStore w.engine n store, fun hsame => h hsame.1⟩

end Work

variable {config : Config} {disk : Disk} {e : Engine} {m : Move} {w : Work} {n : Nat}

/-- Whatever the sessions do and in whatever order, the work of a statement touches no table but
those whose locks the session holds at that moment, exclusively unless it only reads, and the one
that it creates.  A statement that finds its tables by name again has to find the ones it locked. -/
theorem guards_of_touches (h : Reachable config disk e) (hm : e.Allows m) (hw : e.work? m = some w)
    (hcurrent : w.Current) (hnew : n ≠ w.engine.nextTable) (htouches : w.Touches n) :
    w.engine.Guards w.session (lockPlan w.running.statement).2 n := by
  obtain ⟨hmode, taken, htables, htaken⟩ := h.coherent.underway_of_work hm hw
  rw [List.append_nil] at htables
  have hguards : ∀ t ∈ w.running.tables,
      w.engine.Guards w.session (lockPlan w.running.statement).2 t.number := by
    intro t ht
    rw [htables] at ht
    exact hmode ▸ htaken t ht
  by_contra hnot
  have hlocked : ∀ t ∈ w.running.tables, t.number ≠ n := by
    rintro t ht rfl
    exact hnot (hguards t ht)
  have hfound : looksUpAgain w.running.statement = true → ∀ found,
      w.engine.tables (w.engine.session w.session).database (lockPlan w.running.statement).1 =
        .ok found → ∀ t ∈ found, t.number ≠ n :=
    fun hagain found hfound t ht => hlocked t (hcurrent hagain found hfound t ht)
  obtain ⟨store, e', hdiffer, hshows⟩ := htouches
  exact hshows (differ_perform hdiffer hlocked hfound hnew.symm)

instance (e : Engine) (session : Nat) (mode : LockMode) (n : Nat) :
    Decidable (e.Guards session mode n) :=
  inferInstanceAs (Decidable (_ ∨ _))

/-- A schema with one column, the primary one, of whole numbers. -/
def keysOnly (column : String) : Schema :=
  ⟨[({ name := column, type := .int } : Column).asPrimary], 0⟩

/-- A shop whose only table has one row. -/
def stocked : Engine :=
  [.createDatabase "shop", .connect "shop", .execute 1 (.createTable "items" (keysOnly "id")),
    .execute 1 (.insert "items" none [["7"]])].foldl after (.start {} {})

/-- Reading that row. -/
def reading : Work :=
  (stocked.work? (.execute 1 (.select ["items"] none [] none))).get (by decide +kernel)

/-- The session that reads the row has the shared lock of the table. -/
theorem guards_of_touches_items : reading.Touches 1 ∧ reading.engine.Guards 1 .shared 1 := by
  have hreachable : Reachable {} {} stocked := Reachable.start.moves (by decide +kernel)
  have hwork : stocked.work? (.execute 1 (.select ["items"] none [] none)) = some reading :=
    (Option.some_get _).symm
  have htables : reading.engine.tables (reading.engine.session reading.session).database
      (lockPlan reading.running.statement).1 = .ok reading.running.tables := by decide +kernel
  have hcurrent : reading.Current := by
    intro _ found hfound t ht
    obtain rfl : reading.running.tables = found := Except.ok.inj (htables.symm.trans hfound)
    exact ht
  have htouches : reading.Touches 1 :=
    Work.touches_of_answer (reading.engine.config.newStore "shop" "items") (by decide +kernel)
  exact ⟨htouches, guards_of_touches hreachable (by decide +kernel) hwork hcurrent
    (by decide +kernel) htouches⟩

/-- One session holds a table while another waits to read it together with a second table; a third
session drops the second table, makes a new one of that name and adds a row. -/
def replaced : Engine :=
  [.createDatabase "shop", .connect "shop", .connect "shop", .connect "shop",
    .execute 1 (.createTable "items" (keysOnly "id")),
    .execute 1 (.createTable "orders" (keysOnly "number")),
    .beginTransaction 1, .execute 1 (.insert "items" none [["1"]]),
    .execute 2 (.select ["items", "orders"] none [] none),
    .execute 3 (.dropTable "orders"), .execute 3 (.createTable "orders" (keysOnly "number")),
    .beginTransaction 3, .execute 3 (.insert "orders" none [["5"]]), .commit 1].foldl after
    (.start {} {})

/-- The reader goes on when the first session has given back its lock. -/
def resumed : Work :=
  (replaced.work? (.resume ⟨2, ⟨1, "shop.items"⟩, .shared⟩)).get (by decide +kernel)

/-- The reader reads the row of the new table, on which the third session has the exclusive lock and
the reader has none: the lock that it took is that of the dropped table. -/
theorem touches_unguarded :
    Reachable {} {} replaced ∧ replaced.Allows (.resume ⟨2, ⟨1, "shop.items"⟩, .shared⟩) ∧
      replaced.work? (.resume ⟨2, ⟨1, "shop.items"⟩, .shared⟩) = some resumed ∧
      (resumed.run resumed.engine).1 = .ok (.rows ["items.id", "orders.number"] [[.int 1, .int 5]]) ∧
      resumed.Touches 3 ∧ resumed.engine.Guards 3 .exclusive 3 ∧
      ¬ resumed.engine.Guards resumed.session .shared 3 := by
  have htouches : resumed.Touches 3 :=
    Work.touches_of_answer (resumed.engine.config.newStore "shop" "orders") (by decide +kernel)
  exact ⟨Reachable.start.moves (by decide +kernel), by decide +kernel, (Option.some_get _).symm,
    by decide +kernel, htouches, by decide +kernel, by decide +kernel⟩

end Engine

end PageDb
