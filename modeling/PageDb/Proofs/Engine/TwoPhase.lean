import PageDb.Proofs.Engine.Asking
import PageDb.Proofs.Table.Touching

/-!
Two-phase locking.

`Engine.Logged` runs an engine whose tables stay, and keeps a log beside it that the engine does not
read: of every session in a transaction, the tables that its inserts, deletes and updates named, and
the pages that they touched.  `Engine.Disciplined` says that a session in a transaction owns the locks
of the tables in its log, unless a statement of it still waits for one of them, and no others.
-/

namespace PageDb

namespace Engine

/-- Whether a statement changes the rows of a table. -/
def writes : Statement → Bool
  | .insert .. => true
  | .delete .. => true
  | .update .. => true
  | _ => false

/-- Whether a statement leaves all tables where they are.  A table that it makes has a proper schema. -/
def keepsTables : Statement → Prop
  | .dropTable _ => False
  | .createTable _ schema => schema.Proper
  | _ => True

instance : ∀ statement, Decidable (keepsTables statement)
  | .dropTable _ => .isFalse id
  | .createTable _ schema => inferInstanceAs (Decidable schema.Proper)
  | .insert .. | .delete .. | .update .. | .select .. => .isTrue trivial

/-- Whether a move leaves all tables where they are. -/
def Move.KeepsTables : Move → Prop
  | .execute _ statement => keepsTables statement
  | _ => True

instance : ∀ m : Move, Decidable m.KeepsTables
  | .execute _ statement => inferInstanceAs (Decidable (keepsTables statement))
  | .createDatabase _ | .connect _ | .beginTransaction _ | .commit _ | .disconnect _ | .resume _ =>
    .isTrue trivial

/-- What a session has done in its transaction. -/
structure Log where
  /-- The tables that its inserts, deletes and updates named. -/
  tables : List Nat := []
  /-- The pages that those touched, with the tables they are of. -/
  pages : List (Nat × Nat) := []
deriving DecidableEq

/-- The logs of all sessions. -/
abbrev Journal := Nat → Log

/-- The pages of all rows that an update accepts, if it succeeds. -/
def Work.accepted (w : Work) (t : Table) : List Nat :=
  match w.running.statement, (w.run w.engine).1 with
  | .update _ _ _ filter, .ok _ => t.acceptedPages filter w.engine.space
  | _, _ => []

/-- The pages that a write touches: those on which rows were added, removed or changed and those of
the rows that it accepted for an update. -/
def Work.touched (w : Work) : List (Nat × Nat) :=
  w.running.tables.flatMap fun t =>
    (changedPages (t.contents w.engine.space) (t.contents (w.run w.engine).2.space) ++
      w.accepted t).map fun page => (t.number, page)

/-- The tables that a session in a transaction names as it begins to write. -/
def named (e : Engine) (session : Nat) : Move → List Nat
  | .execute s statement =>
    if s = session ∧ (e.session s).inTransaction ∧ writes statement then
      match e.tables (e.session s).database (lockPlan statement).1 with
      | .ok tables => tables.map Table.number
      | .error _ => []
    else []
  | _ => []

/-- The pages that a session in a transaction touches when it writes. -/
def touched (e : Engine) (session : Nat) (m : Move) : List (Nat × Nat) :=
  match e.work? m with
  | none => []
  | some w =>
    if w.session = session ∧ (e.session session).inTransaction ∧ writes w.running.statement then
      w.touched
    else []

/-- Whether a move ends what is logged of a session. -/
def Move.ends (session : Nat) : Move → Bool
  | .commit s => s = session
  | .disconnect s => s = session
  | _ => false

/-- The logs after a move. -/
def Journal.after (j : Journal) (e : Engine) (m : Move) : Journal := fun session =>
  if m.ends session then {}
  else
    { tables := (j session).tables ++ e.named session m
      pages := (j session).pages ++ e.touched session m }

/-- What moves that keep the tables lead to, with what was logged on the way. -/
inductive Logged (config : Config) (disk : Disk) : Engine → Journal → Prop where
  | start : Logged config disk (.start config disk) fun _ => {}
  | move {e : Engine} {j : Journal} {m : Move} (h : Logged config disk e j) (hm : e.Allows m)
      (htables : m.KeepsTables) : Logged config disk (e.after m) (j.after e m)

/-- Whether a table is found in a database. -/
def Finds (e : Engine) (d : Nat) (t : Table) : Prop :=
  ∃ name, (e.database d).tables.get? name = some t

/-- Every table is found where it was before, and numbers of databases yet to come are free. -/
structure Grows (e e' : Engine) : Prop where
  tables : ∀ d name t, (e.database d).tables.get? name = some t →
    (e'.database d).tables.get? name = some t
  fresh : (∀ d, e.nextDatabase ≤ d → e.databases.get? d = none) →
    ∀ d, e'.nextDatabase ≤ d → e'.databases.get? d = none

/-- The databases and what is registered are as before; numbers of tables may have been used up. -/
structure SameCatalog (e e' : Engine) : Prop where
  databases : e'.databases = e.databases
  registry : e'.registry = e.registry
  nextDatabase : e'.nextDatabase = e.nextDatabase
  nextTable : e.nextTable ≤ e'.nextTable

/-- A statement of a session that keeps all tables and has found its own. -/
structure Prepared (j : Journal) (e : Engine) (session : Nat) (running : Running) : Prop where
  mode : running.mode = (lockPlan running.statement).2
  keeps : keepsTables running.statement
  count : running.tables.length = (lockPlan running.statement).1.length
  found : ∀ t ∈ running.tables, e.Finds (e.session session).database t
  logged : writes running.statement = true → (e.session session).inTransaction = true →
    ∀ t ∈ running.tables, t.number ∈ (j session).tables

/-- Whether a session waits to write a table. -/
def Wants (e : Engine) (session n : Nat) : Prop :=
  ∃ running, (e.session session).running = some running ∧ writes running.statement = true ∧
    n ∈ running.tables.map Table.number

/-- What the log of a session says of the locks that it owns. -/
structure Disciplined (j : Journal) (e : Engine) : Prop where
  coherent : e.Coherent
  ledger : ∃ names, e.Ledger names fun s n =>
    (e.session s).inTransaction = true ∧ n ∈ (j s).tables
  fresh : ∀ d, e.nextDatabase ≤ d → e.databases.get? d = none
  waits : ∀ s running, (e.session s).running = some running → e.Prepared j s running
  inTransaction : ∀ s n, n ∈ (j s).tables → (e.session s).inTransaction = true
  found : ∀ s n, n ∈ (j s).tables → ∃ t, e.Finds (e.session s).database t ∧ t.number = n
  owns : ∀ s n, n ∈ (j s).tables → e.Owns s n ∨ e.Wants s n
  pages : ∀ s n page, (n, page) ∈ (j s).pages → n ∈ (j s).tables ∧ e.Owns s n

variable {config : Config} {disk : Disk} {e e' e'' : Engine} {j j' : Journal} {m : Move}
  {r : Request} {session s n : Nat} {running : Running} {t : Table} {statement : Statement}

/-! ## Logs -/

theorem Logged.reachable (h : Logged config disk e j) : Reachable config disk e := by
  induction h with
  | start => exact .start
  | move _ hm _ ih => exact .move ih hm

theorem Journal.after_of_ends (j : Journal) (e : Engine) (hends : m.ends session = true) :
    j.after e m session = {} := if_pos hends

/-- A log with something in it has not ended with the move. -/
theorem Journal.ends_eq_false (j : Journal) (e : Engine) (hlog : j.after e m session ≠ {}) :
    m.ends session = false :=
  Bool.eq_false_iff.2 fun hends => hlog (j.after_of_ends e hends)

theorem releasesLocks_eq (session : Session) (statement : Statement) :
    releasesLocks session statement = !(writes statement && session.inTransaction) := by
  cases statement <;> simp [releasesLocks, writes]

/-! ## Tables stay -/

theorem Grows.refl (e : Engine) : e.Grows e := ⟨fun _ _ _ => id, id⟩

theorem Grows.trans (h : e.Grows e') (h' : e'.Grows e'') : e.Grows e'' :=
  ⟨fun d name t ht => h'.tables d name t (h.tables d name t ht), fun hfresh => h'.fresh (h.fresh hfresh)⟩

theorem Grows.of_databases (hdatabases : e'.databases = e.databases)
    (hnext : e'.nextDatabase = e.nextDatabase) : e.Grows e' := by
  refine ⟨fun d name t ht => ?_, fun hfresh => ?_⟩
  · rw [database, hdatabases]
    exact ht
  · rw [hdatabases, hnext]
    exact hfresh

theorem Grows.finds (h : e.Grows e') {d : Nat} (ht : e.Finds d t) : e'.Finds d t := by
  obtain ⟨name, hname⟩ := ht
  exact ⟨name, h.tables d name t hname⟩

theorem Asks.grows (h : Asks session e e') : e.Grows e' := by
  rw [h.rest]
  exact .of_databases rfl rfl

theorem grows_createDatabase (hascending : e.databases.Ascending fun _ => True)
    (hfresh : ∀ d, e.nextDatabase ≤ d → e.databases.get? d = none) (name : String) :
    e.Grows (e.createDatabase name) := by
  rw [createDatabase]
  split
  · exact .refl e
  have hget (d : Nat) : (e.databases.insert e.nextDatabase { name := name }).get? d =
      if d = e.nextDatabase then some { name := name } else e.databases.get? d :=
    SortedMap.get?_insert_eq hascending _ _ _
  refine ⟨fun d key t ht => ?_, fun _ d hd => ?_⟩
  · have hne : d ≠ e.nextDatabase := by
      rintro rfl
      rw [database, hfresh _ (Nat.le_refl _)] at ht
      cases ht
    rw [database, hget, if_neg hne]
    exact ht
  · have hd : e.nextDatabase + 1 ≤ d := hd
    rw [hget, if_neg (by omega)]
    exact hfresh d (by omega)

/-- A statement that keeps tables leaves every table where it is found. -/
theorem grows_perform (hkeeps : keepsTables statement) (e : Engine)
    (htables : ∀ d, (e.database d).tables.Ascending fun _ => True) (client : Session)
    (tables : List Table) : e.Grows ((perform client statement tables).run e).2 := by
  have hrest (hstatement : altersCatalog statement = false) :
      e.Grows ((perform client statement tables).run e).2 := by
    obtain ⟨space, hspace⟩ := perform_eq_withSpace hstatement e client tables
    rw [hspace]
    exact .of_databases rfl rfl
  cases statement with
  | dropTable => cases hkeeps
  | createTable name schema =>
    simp only [perform, Action.run_bind_pure, run_createTable]
    split
    · exact .refl e
    rename_i hnew
    refine ⟨fun d key t ht => ?_, fun hfresh d hd => ?_⟩
    · obtain ⟨-, hsame | ⟨hd, hinserted⟩⟩ := database_withTables e client.database
        ((e.database client.database).tables.insert name
          ⟨e.nextTable, (e.database client.database).name, name, schema⟩) d
      · exact (congrArg (fun tables => tables.get? key) hsame).trans ht
      · refine (congrArg (fun tables => tables.get? key) hinserted).trans ?_
        rw [SortedMap.get?_insert_eq (htables _), if_neg, ← hd, ht]
        -- no table had the name of the new one
        rintro rfl
        rw [← hd, SortedMap.contains, ht] at hnew
        exact hnew rfl
    · dsimp only
      rw [SortedMap.get?_modify_eq, hfresh d hd]
      split <;> rfl
  | _ => exact hrest rfl

theorem SameCatalog.refl (e : Engine) : e.SameCatalog e := ⟨rfl, rfl, rfl, Nat.le_refl _⟩

theorem SameCatalog.trans (h : e.SameCatalog e') (h' : e'.SameCatalog e'') : e.SameCatalog e'' :=
  ⟨h'.databases.trans h.databases, h'.registry.trans h.registry,
    h'.nextDatabase.trans h.nextDatabase, Nat.le_trans h.nextTable h'.nextTable⟩

theorem SameCatalog.grows (h : e.SameCatalog e') : e.Grows e' := .of_databases h.databases h.nextDatabase

theorem sameCatalog_releaseEach (e : Engine) (session : Nat) (mode : LockMode) (tables : List Table) :
    e.SameCatalog (e.releaseEach session mode tables) := by
  induction tables generalizing e with
  | nil => exact .refl e
  | cons t rest ih =>
    have hone : e.SameCatalog (e.release session t mode).2 := by
      simp only [release]
      split <;> exact ⟨rfl, rfl, rfl, Nat.le_refl _⟩
    exact hone.trans (ih (e.release session t mode).2)

theorem grows_finish (hkeeps : keepsTables running.statement) (e : Engine)
    (htables : ∀ d, (e.database d).tables.Ascending fun _ => True) (session : Nat) :
    e.Grows (finish session running e).2 := by
  have hperform := grows_perform hkeeps e htables (e.session session) running.tables
  rw [finish_snd]
  split
  · exact hperform.trans (sameCatalog_releaseEach _ session running.mode running.tables).grows
  · exact hperform

/-! ## Statements -/

theorem Prepared.mono (h : e.Prepared j session running) (hgrows : e.Grows e')
    (hdatabase : (e'.session session).database = (e.session session).database)
    (hin : (e'.session session).inTransaction = (e.session session).inTransaction)
    (hlog : ∀ n ∈ (j session).tables, n ∈ (j' session).tables) : e'.Prepared j' session running where
  mode := h.mode
  keeps := h.keeps
  count := h.count
  found t ht := hdatabase ▸ hgrows.finds (h.found t ht)
  logged hwrites hin' t ht := hlog _ (h.logged hwrites (hin ▸ hin') t ht)

theorem Prepared.length_of_writes (h : e.Prepared j session running)
    (hwrites : writes running.statement = true) : running.tables.length = 1 := by
  rw [h.count]
  cases hstatement : running.statement <;> simp [hstatement, writes] at hwrites <;> rfl

/-- In a transaction a statement gives back no lock that it may have to itself. -/
theorem Prepared.releases_none (h : e.Prepared j session running) (client : Session)
    (hin : client.inTransaction = true) :
    running.mode = .shared ∨ running.tables = [] ∨
      releasesLocks client running.statement = false := by
  rw [releasesLocks_eq, hin, h.mode]
  have hcount := h.count
  have hkeeps := h.keeps
  cases hstatement : running.statement with
  | createTable name schema =>
    rw [hstatement] at hcount
    exact .inr (.inl (List.eq_nil_of_length_eq_zero hcount))
  | dropTable name => simp [hstatement, keepsTables] at hkeeps
  | select => exact .inl rfl
  | _ => exact .inr (.inr rfl)

/-- A statement that writes owns the locks of its tables when it comes to its work. -/
theorem owns_of_underway (h : e.Underway session running [])
    (hwrites : writes running.statement = true) (ht : t ∈ running.tables) :
    e.Owns session t.number := by
  obtain ⟨hmode, taken, htables, htaken⟩ := h
  rw [List.append_nil] at htables
  have hexclusive : running.mode = .exclusive := by
    rw [hmode]
    cases hstatement : running.statement <;> simp [hstatement, writes] at hwrites <;> rfl
  exact owns_iff_guards.2 (hexclusive ▸ htaken t (htables ▸ ht))

namespace GoesOn

theorem grows (h : e.GoesOn session running m) (hkeeps : keepsTables running.statement)
    (htables : ∀ d, (e.database d).tables.Ascending fun _ => True) : e.Grows (e.after m) := by
  cases h with
  | works found hwork hasks hnone hafter =>
    have hfound (d : Nat) : (found.database d).tables.Ascending fun _ => True := by
      rw [hasks.rest]
      exact htables d
    rw [hafter]
    exact hasks.grows.trans (grows_finish hkeeps found hfound session)
  | waits pending hwork hasks hrunning => exact hasks.grows

theorem clients (h : e.GoesOn session running m) (s : Nat) :
    ((e.after m).session s).inTransaction = (e.session s).inTransaction ∧
      ((e.after m).session s).database = (e.session s).database := by
  cases h with
  | works found hwork hasks hnone hafter =>
    rw [hafter, Engine.session, sessions_finish]
    exact hasks.clients s
  | waits pending hwork hasks hrunning => exact hasks.clients s

theorem others (h : e.GoesOn session running m) (hs : s ≠ session) :
    ((e.after m).session s).running = (e.session s).running := by
  cases h with
  | works found hwork hasks hnone hafter =>
    rw [hafter, Engine.session, sessions_finish]
    exact hasks.others s hs
  | waits pending hwork hasks hrunning => exact hasks.others s hs

/-- If the statement of the session waits it is this one. -/
theorem eq_of_running (h : e.GoesOn session running m) {running' : Running}
    (hrunning : ((e.after m).session session).running = some running') :
    ∃ pending, running' = { running with pending := pending } := by
  cases h with
  | works found hwork hasks hnone hafter =>
    rw [hafter, Engine.session, sessions_finish] at hrunning
    cases hnone.symm.trans hrunning
  | waits pending hwork hasks hwaits => exact ⟨pending, Option.some.inj (hrunning.symm.trans hwaits)⟩

theorem owns (h : e.GoesOn session running m)
    (hkeeps : s ≠ session ∨ running.mode = .shared ∨ running.tables = [] ∨
      releasesLocks (e.session session) running.statement = false)
    (howns : e.Owns s n) : (e.after m).Owns s n := by
  cases h with
  | works found hwork hasks hnone hafter =>
    rw [hafter]
    apply owns_finish hasks.sound _ (hasks.owns s n howns)
    rw [releasesLocks_eq, (hasks.clients session).1, ← releasesLocks_eq]
    exact hkeeps
  | waits pending hwork hasks hrunning => exact hasks.owns s n howns

/-- A session in a transaction owns the locks of the tables that it has written. -/
theorem owns_of_work (h : e.GoesOn session running m) (hcoherent : e.Coherent) (hm : e.Allows m)
    (hwrites : writes running.statement = true) (hin : (e.session session).inTransaction = true)
    (ht : t ∈ running.tables) {w : Work} (hw : e.work? m = some w) :
    (e.after m).Owns session t.number := by
  cases h with
  | works found hwork hasks hnone hafter =>
    rw [hafter]
    refine owns_finish hasks.sound (.inr (.inr (.inr ?_)))
      (owns_of_underway (hcoherent.underway_of_work hm hwork) hwrites ht)
    rw [releasesLocks_eq, hwrites, (hasks.clients session).1, hin]
    rfl
  | waits pending hwork hasks hrunning => cases hwork.symm.trans hw

theorem owns_or_wants (h : e.GoesOn session running m) (hcoherent : e.Coherent) (hm : e.Allows m)
    (hwrites : writes running.statement = true) (hin : (e.session session).inTransaction = true)
    (ht : t ∈ running.tables) :
    (e.after m).Owns session t.number ∨ (e.after m).Wants session t.number := by
  cases hw : e.work? m with
  | some w => exact .inl (h.owns_of_work hcoherent hm hwrites hin ht hw)
  | none =>
    cases h with
    | works found hwork hasks hnone hafter => cases hwork.symm.trans hw
    | waits pending hwork hasks hrunning =>
      exact .inr ⟨_, hrunning, hwrites, List.mem_map_of_mem ht⟩

end GoesOn

theorem Work.mem_touched {w : Work} {page : Nat} (h : (n, page) ∈ w.touched) :
    ∃ t ∈ w.running.tables, t.number = n := by
  obtain ⟨t, ht, hpage⟩ := List.mem_flatMap.1 h
  obtain ⟨_, -, heq⟩ := List.mem_map.1 hpage
  exact ⟨t, ht, congrArg Prod.fst heq⟩

/-- The pages that a move adds to a log are those that its statement touches. -/
theorem GoesOn.mem_pages_after (h : e.GoesOn session running m) {page : Nat}
    (hpage : (n, page) ∈ (j.after e m s).pages) :
    (n, page) ∈ (j s).pages ∨ s = session ∧ (e.session session).inTransaction = true ∧
      writes running.statement = true ∧ ∃ found, e.work? m = some ⟨session, running, found⟩ ∧
        (n, page) ∈ Work.touched ⟨session, running, found⟩ := by
  rw [Journal.after] at hpage
  split at hpage
  · cases hpage
  refine (List.mem_append.1 hpage).imp_right fun hnew => ?_
  cases h with
  | works found hwork hasks hnone hafter =>
    rw [touched, hwork] at hnew
    dsimp only at hnew
    split at hnew
    · rename_i hall
      obtain ⟨rfl, hin, hwrites⟩ := hall
      exact ⟨rfl, hin, hwrites, found, hwork, hnew⟩
    · cases hnew
  | waits pending hwork hasks hrunning =>
    rw [touched, hwork] at hnew
    cases hnew

/-- A statement that goes on keeps the discipline, if the log takes in what it names and touches. -/
theorem Disciplined.goesOn (h : e.Disciplined j) (hm : e.Allows m)
    (hgoes : e.GoesOn session running m) (hprepared : e.Prepared (j.after e m) session running)
    (hwas : ∀ running', (e.session session).running = some running' → running' = running)
    (htables : ∀ s n, n ∈ (j.after e m s).tables ↔ n ∈ (j s).tables ∨ s = session ∧
      (e.session session).inTransaction = true ∧ writes running.statement = true ∧
        n ∈ running.tables.map Table.number)
    (hledger : ∃ names, (e.after m).Ledger names fun s n =>
      ((e.after m).session s).inTransaction = true ∧ n ∈ (j.after e m s).tables) :
    (e.after m).Disciplined (j.after e m) := by
  obtain ⟨names, hold⟩ := h.ledger
  have hgrows := hgoes.grows hprepared.keeps hold.filed.tables
  have hlog (s n : Nat) (hn : n ∈ (j s).tables) : n ∈ (j.after e m s).tables := (htables s n).2 (.inl hn)
  -- a lock that was owned by the log is owned still
  have howns (s n : Nat) (hn : n ∈ (j s).tables) (howned : e.Owns s n) : (e.after m).Owns s n := by
    apply hgoes.owns _ howned
    by_cases hs : s = session
    · subst hs
      exact .inr (hprepared.releases_none _ (h.inTransaction s n hn))
    · exact .inl hs
  refine ⟨h.coherent.after hm, hledger, hgrows.fresh h.fresh, fun s running' hrunning => ?_,
    fun s n hn => ?_, fun s n hn => ?_, fun s n hn => ?_, fun s n page hpage => ?_⟩
  -- statements that wait: the one that goes on, and those of other sessions
  · obtain ⟨hin, hdatabase⟩ := hgoes.clients s
    by_cases hs : s = session
    · subst hs
      obtain ⟨pending, rfl⟩ := hgoes.eq_of_running hrunning
      have hsame := hprepared.mono hgrows hdatabase hin fun _ hn => hn
      exact ⟨hsame.mode, hsame.keeps, hsame.count, hsame.found, hsame.logged⟩
    · rw [hgoes.others hs] at hrunning
      exact (h.waits s running' hrunning).mono hgrows hdatabase hin (hlog s)
  · rw [(hgoes.clients s).1]
    rcases (htables s n).1 hn with hn | ⟨rfl, hin, -⟩
    · exact h.inTransaction s n hn
    · exact hin
  · rw [(hgoes.clients s).2]
    rcases (htables s n).1 hn with hn | ⟨rfl, -, -, hn⟩
    · obtain ⟨t, ht, hnumber⟩ := h.found s n hn
      exact ⟨t, hgrows.finds ht, hnumber⟩
    · obtain ⟨t, ht, hnumber⟩ := List.mem_map.1 hn
      exact ⟨t, hgrows.finds (hprepared.found t ht), hnumber⟩
  -- locks: those owned before, those that the session waited for, and those just asked for
  · rcases (htables s n).1 hn with hn | ⟨rfl, hin, hwrites, hn⟩
    · rcases h.owns s n hn with howned | ⟨running', hrunning, hwrites, hin⟩
      · exact .inl (howns s n hn howned)
      · by_cases hs : s = session
        · subst hs
          obtain rfl := hwas running' hrunning
          obtain ⟨t, ht, rfl⟩ := List.mem_map.1 hin
          exact hgoes.owns_or_wants h.coherent hm hwrites (h.inTransaction s _ hn) ht
        · exact .inr ⟨running', (hgoes.others hs).trans hrunning, hwrites, hin⟩
    · obtain ⟨t, ht, rfl⟩ := List.mem_map.1 hn
      exact hgoes.owns_or_wants h.coherent hm hwrites hin ht
  · rcases hgoes.mem_pages_after hpage with hold | ⟨rfl, hin, hwrites, found, hw, hnew⟩
    · obtain ⟨hn, howned⟩ := h.pages s n page hold
      exact ⟨hlog s n hn, howns s n hn howned⟩
    · obtain ⟨t, ht, rfl⟩ := Work.mem_touched hnew
      exact ⟨(htables s _).2 (.inr ⟨rfl, hin, hwrites, List.mem_map_of_mem ht⟩),
        hgoes.owns_of_work h.coherent hm hwrites hin ht hw⟩

/-- In an engine whose tables stay, no statement asks for a lock in the place of another one of the
same name. -/
theorem Disciplined.overwrites_eq_false (h : e.Disciplined j) (hready : e.ready session = true)
    (statement : Statement) : e.overwrites (.execute session statement) = false := by
  obtain ⟨s, -, hsession, hnone⟩ := session_of_ready hready
  obtain ⟨names, hledger⟩ := h.ledger
  have hfits := hledger.fits session
  rw [hsession, Session.targets, Session.mode, hnone, ← hsession] at hfits
  rw [overwrites]
  split
  · rename_i tables htables hmode
    refine List.any_eq_false.2 fun t ht => ?_
    rw [Bool.not_eq_true, Option.any_eq_false]
    intro n hn
    -- what is recorded under the name is the table of that name
    obtain ⟨-, hlog⟩ := (hfits.exclusive _ n hn).resolve_right fun hboth => by simp at hboth
    obtain ⟨u, ⟨other, hu⟩, rfl⟩ := h.found session n hlog
    obtain ⟨name, -, hname⟩ := exists_found htables ht
    have hqualified := (hledger.filed.found _ _ u hu).2.2
    have hsame := hledger.filed.eq_of_qualifiedName hname hu
      (Option.some.inj ((hfits.named _ _ _ hn).symm.trans hqualified))
    simp [hsame]
  · rfl

theorem length_tables {d : Nat} {list : List String} {tables : List Table}
    (h : e.tables d list = .ok tables) : tables.length = list.length :=
  (forall₂_of_mapM h).length_eq.symm

section

variable {tables : List Table}
  (htables : e.tables (e.session session).database (lockPlan statement).1 = .ok tables)

include htables

/-- A statement that finds its tables puts them into the log, if it writes in a transaction. -/
theorem mem_tables_after_execute : n ∈ (j.after e (.execute session statement) s).tables ↔
    n ∈ (j s).tables ∨ s = session ∧ (e.session session).inTransaction = true ∧
      writes statement = true ∧ n ∈ tables.map Table.number := by
  simp only [Journal.after, Move.ends, Bool.false_eq_true, if_false, List.mem_append, named, htables,
    eq_comm (a := session)]
  split
  · rename_i hall
    simp only [hall, true_and]
  · rename_i hnot
    have hnone : ¬ (s = session ∧ (e.session session).inTransaction = true ∧
        writes statement = true ∧ n ∈ tables.map Table.number) :=
      fun hall => hnot ⟨hall.1, hall.2.1, hall.2.2.1⟩
    simp only [hnone, List.not_mem_nil]

theorem prepared_execute (hkeeps : keepsTables statement) :
    e.Prepared (j.after e (.execute session statement)) session
      { statement := statement, tables := tables, mode := (lockPlan statement).2, pending := [] } := by
  refine ⟨rfl, hkeeps, length_tables htables, fun t ht => ?_, fun hwrites hin t ht => ?_⟩
  · obtain ⟨name, -, hname⟩ := exists_found htables ht
    exact ⟨name, hname⟩
  · exact (mem_tables_after_execute htables).2 (.inr ⟨rfl, hin, hwrites, List.mem_map_of_mem ht⟩)

end

/-- A statement that does not find its tables is not logged. -/
theorem Journal.after_execute_error (j : Journal) {failure : Error}
    (htables : e.tables (e.session session).database (lockPlan statement).1 = .error failure) :
    j.after e (.execute session statement) = j := by
  funext s
  simp [Journal.after, Move.ends, named, touched, work?, htables]

theorem Disciplined.execute (h : e.Disciplined j) (hready : e.ready session = true)
    (hkeeps : keepsTables statement) :
    (e.after (.execute session statement)).Disciplined (j.after e (.execute session statement)) := by
  obtain ⟨s, -, hsession, hnone⟩ := session_of_ready hready
  rcases goesOn_execute h.coherent hready statement with ⟨⟨failure, htables⟩, hwork, hafter⟩ |
    ⟨tables, htables, hgoes⟩
  · rw [hafter, j.after_execute_error htables]
    exact h
  have hnamed (s n : Nat) := mem_tables_after_execute (j := j) (s := s) (n := n) htables
  obtain ⟨names, hledger⟩ := h.ledger
  have hkept : e.Ledger names fun s n => (e.session s).inTransaction = true ∧
      n ∈ (j.after e (.execute session statement) s).tables :=
    hledger.mono fun s n hn => ⟨hn.1, (hnamed s n).2 (.inl hn.2)⟩
  refine h.goesOn hready hgoes (prepared_execute htables hkeeps) (fun running' hrunning => ?_) hnamed ?_
  · rw [hsession, hnone] at hrunning
    cases hrunning
  · obtain ⟨names', hafter⟩ := hkept.execute hready (h.overwrites_eq_false hready statement)
      fun hreleases tables' htables' t ht => by
        obtain rfl : tables = tables' := Except.ok.inj (htables.symm.trans htables')
        rw [releasesLocks_eq, Bool.not_eq_false', Bool.and_eq_true] at hreleases
        exact ⟨hreleases.2, (hnamed session _).2
          (.inr ⟨rfl, hreleases.2, hreleases.1, List.mem_map_of_mem ht⟩)⟩
    exact ⟨names', hafter.mono fun s n hn =>
      ⟨(inTransaction_execute e session statement s).trans hn.1, hn.2⟩⟩

theorem Disciplined.resume (h : e.Disciplined j) (hr : r ∈ e.locks.requests) :
    (e.after (.resume r)).Disciplined (j.after e (.resume r)) := by
  obtain ⟨running, hrunning, hgoes⟩ := goesOn_resume h.coherent hr
  have hprepared := h.waits r.session running hrunning
  have hsame (s n : Nat) : n ∈ (j.after e (.resume r) s).tables ↔ n ∈ (j s).tables := by
    simp [Journal.after, Move.ends, named]
  obtain ⟨names, hledger⟩ := h.ledger
  refine h.goesOn hr hgoes ?_ (fun running' hrunning' => ?_) (fun s n => ?_) ?_
  · exact hprepared.mono (.refl e) rfl rfl fun n hn => (hsame r.session n).2 hn
  · exact Option.some.inj (hrunning'.symm.trans hrunning)
  · rw [hsame]
    refine ⟨.inl, ?_⟩
    rintro (hn | ⟨rfl, hin, hwrites, hn⟩)
    · exact hn
    · obtain ⟨t, ht, rfl⟩ := List.mem_map.1 hn
      exact hprepared.logged hwrites hin t ht
  · obtain ⟨names', hafter⟩ := hledger.resume h.coherent hr fun running' hrunning' hreleases t ht => by
      obtain rfl : running = running' := Option.some.inj (hrunning.symm.trans hrunning')
      rw [releasesLocks_eq, Bool.not_eq_false', Bool.and_eq_true] at hreleases
      exact ⟨hreleases.2, hprepared.logged hreleases.1 hreleases.2 t ht⟩
    exact ⟨names', hafter.mono fun s n hn =>
      ⟨(inTransaction_resume e r s).trans hn.1, (hsame s n).2 hn.2⟩⟩

/-! ## Moves that are no statements -/

/-- A move that is no statement keeps the discipline, if it keeps the sessions that have a log and
those whose statements wait, or ends their logs. -/
theorem Disciplined.rests (h : e.Disciplined j) (hm : e.Allows m)
    (hwork : e.work? m = none) (hnamed : ∀ s, e.named s m = [])
    (hgrows : e.Grows (e.after m))
    (hsession : ∀ s, m.ends s = false → ((e.after m).session s).running = (e.session s).running ∧
      ((e.session s).running ≠ none ∨ (e.session s).inTransaction = true →
        ((e.after m).session s).database = (e.session s).database ∧
          ((e.after m).session s).inTransaction = (e.session s).inTransaction) ∧
      ∀ n, e.Owns s n → (e.after m).Owns s n)
    (hends : ∀ s, m.ends s = true → ((e.after m).session s).running = none)
    (hledger : ∃ names, (e.after m).Ledger names fun s n =>
      ((e.after m).session s).inTransaction = true ∧ n ∈ (j.after e m s).tables) :
    (e.after m).Disciplined (j.after e m) := by
  have hsame (s : Nat) (hs : m.ends s = false) : j.after e m s = j s := by
    simp [Journal.after, hs, hnamed, touched, hwork]
  have hgone {s n : Nat} (hn : n ∈ (j.after e m s).tables) : m.ends s = false :=
    j.ends_eq_false e fun hempty => by simp [hempty] at hn
  have hopen (s n : Nat) (hn : n ∈ (j.after e m s).tables) :
      n ∈ (j s).tables ∧ ((e.after m).session s).database = (e.session s).database ∧
        ((e.after m).session s).inTransaction = true := by
    have hs := hgone hn
    rw [hsame s hs] at hn
    have hin := h.inTransaction s n hn
    obtain ⟨-, hclient, -⟩ := hsession s hs
    obtain ⟨hdatabase, hstill⟩ := hclient (.inr hin)
    exact ⟨hn, hdatabase, hstill.trans hin⟩
  refine ⟨h.coherent.after hm, hledger, hgrows.fresh h.fresh, fun s running hrunning => ?_,
    fun s n hn => (hopen s n hn).2.2, fun s n hn => ?_, fun s n hn => ?_, fun s n page hpage => ?_⟩
  -- a session whose log ends has no statement that waits
  · cases hs : m.ends s with
    | true => cases (hends s hs).symm.trans hrunning
    | false =>
      obtain ⟨hstill, hclient, -⟩ := hsession s hs
      rw [hstill] at hrunning
      obtain ⟨hdatabase, hin⟩ := hclient (.inl (by simp [hrunning]))
      refine (h.waits s running hrunning).mono hgrows hdatabase hin fun n hn => ?_
      rw [hsame s hs]
      exact hn
  · obtain ⟨hold, hdatabase, -⟩ := hopen s n hn
    obtain ⟨t, ht, hnumber⟩ := h.found s n hold
    exact ⟨t, hdatabase ▸ hgrows.finds ht, hnumber⟩
  · obtain ⟨hstill, -, howns⟩ := hsession s (hgone hn)
    refine (h.owns s n (hopen s n hn).1).imp (howns n) ?_
    rintro ⟨running, hrunning, hwants⟩
    exact ⟨running, hstill.trans hrunning, hwants⟩
  · have hs : m.ends s = false := j.ends_eq_false e fun hempty => by simp [hempty] at hpage
    rw [hsame s hs] at hpage ⊢
    obtain ⟨hn, howned⟩ := h.pages s n page hpage
    exact ⟨hn, (hsession s hs).2.2 n howned⟩

theorem Disciplined.createDatabase (h : e.Disciplined j) (name : String) :
    (e.after (.createDatabase name)).Disciplined (j.after e (.createDatabase name)) := by
  obtain ⟨names, hledger⟩ := h.ledger
  have hsession (s : Nat) : (e.createDatabase name).session s = e.session s := by
    rw [Engine.createDatabase]
    split <;> rfl
  have hlocks : (e.createDatabase name).locks = e.locks := by
    rw [Engine.createDatabase]
    split <;> rfl
  refine h.rests trivial rfl (fun _ => rfl)
    (grows_createDatabase hledger.filed.databases h.fresh name) (fun s _ => ?_)
    (fun _ hends => by cases hends) ?_
  · rw [after, hsession]
    refine ⟨rfl, fun _ => ⟨rfl, rfl⟩, fun n hn => ?_⟩
    rw [Owns, hlocks]
    exact hn
  · refine ⟨names, (hledger.createDatabase name).mono fun s n hn => ?_⟩
    rw [after, hsession]
    simpa [Journal.after, Move.ends, named] using hn

theorem Disciplined.connect (h : e.Disciplined j) (name : String) :
    (e.after (.connect name)).Disciplined (j.after e (.connect name)) := by
  obtain ⟨names, hledger⟩ := h.ledger
  have hclients (s : Nat) := session_connect h.coherent name s
  have hsame : ((Engine.connect name).run e).2.locks = e.locks ∧
      ((Engine.connect name).run e).2.databases = e.databases ∧
      ((Engine.connect name).run e).2.nextDatabase = e.nextDatabase := by
    rw [run_connect]
    cases e.databaseNumber name <;> exact ⟨rfl, rfl, rfl⟩
  have hopen (s : Nat) (hs : (e.session s).running ≠ none ∨ (e.session s).inTransaction = true) :
      ((Engine.connect name).run e).2.session s = e.session s := by
    have hne : s ≠ e.nextSession := by
      rintro rfl
      simp [Engine.session, h.coherent.fresh _ (Nat.le_refl _)] at hs
    rw [run_connect]
    cases e.databaseNumber name with
    | error failure => rfl
    | ok database =>
      simp only [Engine.session, SortedMap.get?_insert_eq h.coherent.sessions, if_neg hne]
  refine h.rests trivial rfl (fun _ => rfl) (.of_databases hsame.2.1 hsame.2.2) (fun s _ => ?_)
    (fun _ hends => by cases hends) ?_
  · refine ⟨(hclients s).1, fun hs => ?_, fun n hn => ?_⟩
    · rw [after, hopen s hs]
      exact ⟨rfl, rfl⟩
    · rw [after, Owns, hsame.1]
      exact hn
  · refine ⟨names, (hledger.connect h.coherent name).mono fun s n hn => ?_⟩
    refine ⟨(hclients s).2.trans hn.1, ?_⟩
    simpa [Journal.after, Move.ends, named] using hn.2

theorem Disciplined.beginTransaction (h : e.Disciplined j) (hready : e.ready session = true) :
    (e.after (.beginTransaction session)).Disciplined (j.after e (.beginTransaction session)) := by
  obtain ⟨names, hledger⟩ := h.ledger
  have hsession (s : Nat) := session_modifySession_eq e session s fun s =>
    { s with inTransaction := true }
  have hstill (s : Nat) : ((e.beginTransaction session).session s).running = (e.session s).running := by
    rw [Engine.beginTransaction, hsession]
    split <;> rfl
  have hin (s : Nat) (hs : (e.session s).inTransaction = true) :
      ((e.beginTransaction session).session s).inTransaction = true := by
    rw [Engine.beginTransaction, hsession]
    split
    · rfl
    · exact hs
  refine h.rests hready rfl (fun _ => rfl) (.of_databases rfl rfl) (fun s _ => ?_)
    (fun _ hends => by cases hends) ?_
  · refine ⟨hstill s, fun hs => ?_, fun _ => id⟩
    rcases hs with hs | hs
    · have hne : s ≠ session := by
        rintro rfl
        obtain ⟨found, -, hfound, hnone⟩ := session_of_ready hready
        exact hs (hfound ▸ hnone)
      rw [after, Engine.beginTransaction, session_modifySession _ _ _ _ hne]
      exact ⟨rfl, rfl⟩
    · refine ⟨?_, (hin s hs).trans hs.symm⟩
      rw [after, Engine.beginTransaction, hsession]
      split <;> rfl
  · have hsame : (e.beginTransaction session).Ledger names fun s n =>
        (e.session s).inTransaction = true ∧ n ∈ (j s).tables :=
      hledger.of_same rfl ⟨hledger.filed.databases, hledger.filed.tables, hledger.filed.found,
        hledger.filed.fresh⟩ hstill
    refine ⟨names, hsame.mono fun s n hn => ⟨hin s hn.1, ?_⟩⟩
    simpa [Journal.after, Move.ends, named] using hn.2

theorem owns_releaseAll (h : e.locks.Sound) (hs : s ≠ session) (howns : e.Owns s n) :
    (e.releaseAll session).Owns s n := by
  show ((e.locks.releaseAll session).2.account s).holds .exclusive n = true
  rw [LockManager.account_releaseAll_of_ne h hs]
  exact howns

theorem Disciplined.commit (h : e.Disciplined j) (hready : e.ready session = true) :
    (e.after (.commit session)).Disciplined (j.after e (.commit session)) := by
  obtain ⟨names, hledger⟩ := h.ledger
  obtain ⟨found, hs, -, hnone⟩ := session_of_ready hready
  have hother (s : Nat) (hs : s ≠ session) : (e.commit session).session s = e.session s :=
    session_modifySession (e.releaseAll session) _ _ _ hs
  refine h.rests hready rfl (fun _ => rfl) (.of_databases rfl rfl) (fun s hends => ?_)
    (fun s hends => ?_) ?_
  · have hne : s ≠ session := fun heq => by simp [Move.ends, heq] at hends
    rw [after, hother s hne]
    exact ⟨rfl, fun _ => ⟨rfl, rfl⟩, fun n => owns_releaseAll h.coherent.locks hne⟩
  · obtain rfl : session = s := by simpa [Move.ends] using hends
    rw [after, Engine.commit, session_modifySession_self (e.releaseAll session) _ hs]
    exact hnone
  · refine ⟨names, hledger.commit hready fun s hne n hn => ?_⟩
    rw [after, hother s hne]
    refine ⟨hn.1, ?_⟩
    simpa [Journal.after, Move.ends, named, hne.symm] using hn.2

theorem Disciplined.disconnect (h : e.Disciplined j) (hready : e.ready session = true) :
    (e.after (.disconnect session)).Disciplined (j.after e (.disconnect session)) := by
  obtain ⟨names, hledger⟩ := h.ledger
  have hsession (s : Nat) := session_disconnect h.coherent session s
  refine h.rests hready rfl (fun _ => rfl) (.of_databases rfl rfl) (fun s hends => ?_)
    (fun s hends => ?_) ?_
  · have hne : s ≠ session := fun heq => by simp [Move.ends, heq] at hends
    rw [after, hsession, if_neg hne]
    exact ⟨rfl, fun _ => ⟨rfl, rfl⟩, fun n => owns_releaseAll h.coherent.locks hne⟩
  · obtain rfl : session = s := by simpa [Move.ends] using hends
    rw [after, hsession, if_pos rfl]
  · refine ⟨names, hledger.disconnect h.coherent hready fun s hne n hn => ?_⟩
    rw [after, hsession, if_neg hne]
    refine ⟨hn.1, ?_⟩
    simpa [Journal.after, Move.ends, named, hne.symm] using hn.2

theorem Disciplined.after (h : e.Disciplined j) (hm : e.Allows m) (htables : m.KeepsTables) :
    (e.after m).Disciplined (j.after e m) := by
  cases m with
  | createDatabase name => exact h.createDatabase name
  | connect database => exact h.connect database
  | beginTransaction session => exact h.beginTransaction hm
  | commit session => exact h.commit hm
  | disconnect session => exact h.disconnect hm
  | execute session statement => exact h.execute hm htables
  | resume r => exact h.resume hm

theorem disciplined_start (config : Config) (disk : Disk) :
    (Engine.start config disk).Disciplined fun _ => {} where
  coherent := coherent_start config disk
  ledger := ⟨_, ledger_start config disk _⟩
  fresh _ _ := rfl
  waits _ _ h := by cases h
  inTransaction _ _ h := by cases h
  found _ _ h := by cases h
  owns _ _ h := by cases h
  pages _ _ _ h := by cases h

theorem Logged.disciplined (h : Logged config disk e j) : e.Disciplined j := by
  induction h with
  | start => exact disciplined_start config disk
  | move _ hm htables ih => exact ih.after hm htables

/-- A session between two statements owns the locks of the tables in its log, and holds no other lock.
Outside a transaction nothing is in its log. -/
theorem Disciplined.holds_iff (h : e.Disciplined j) (hnone : (e.session session).running = none)
    (mode : LockMode) (n : Nat) :
    (e.locks.lockOf n).holds mode session = true ↔ mode = .exclusive ∧ n ∈ (j session).tables := by
  obtain ⟨names, hledger⟩ := h.ledger
  have hfits := hledger.fits session
  rw [Session.targets, Session.mode, hnone] at hfits
  refine ⟨fun hheld => ?_, ?_⟩
  -- what is held is recorded, and without a statement only kept locks are recorded
  · obtain ⟨name, hname⟩ := (hfits.held mode n).1 hheld
    cases mode with
    | shared => cases (hfits.shared name n hname).1
    | exclusive =>
      rcases hfits.exclusive name n hname with hkept | ⟨-, hin⟩
      · exact ⟨rfl, hkept.2⟩
      · cases hin
  · rintro ⟨rfl, hn⟩
    rcases h.owns session n hn with howns | ⟨running, hrunning, -⟩
    · exact howns
    · cases hnone.symm.trans hrunning

end Engine

end PageDb
