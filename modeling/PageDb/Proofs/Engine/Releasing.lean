import PageDb.Proofs.Engine.Guarding
import PageDb.Proofs.Lock.Accounts

/-!
Locks that are left when a session is done.

A session that commits or disconnects gives back what is recorded of it, by name.  A name stands for
the lock that was granted last; when a session in a transaction holds a table that was dropped, and
is then granted its replacement of the same name, the old lock is no longer recorded.
`Engine.Ledger` says that otherwise nobody holds a lock that is not recorded, and that a session
outside a transaction has none between two statements.
-/

namespace PageDb

/-- The targets whose locks the statement of a session takes. -/
def Session.targets (s : Session) : List Target :=
  s.running.elim [] fun running => running.tables.map Table.target

/-- How the statement of a session locks them. -/
def Session.mode (s : Session) : LockMode := s.running.elim .exclusive Running.mode

namespace Engine

open LockManager (Account)

/-- The tables of every database are found under their names, and their numbers stand for their
qualified names. -/
structure Filed (names : Nat → Option String) (e : Engine) : Prop where
  databases : e.databases.Ascending fun _ => True
  tables : ∀ d, (e.database d).tables.Ascending fun _ => True
  found : ∀ d name t, (e.database d).tables.get? name = some t →
    t.name = name ∧ t.database = (e.database d).name ∧ names t.number = some t.qualifiedName
  fresh : ∀ n, e.nextTable ≤ n → names n = none

/-- The account of every session fits its statement, if it has one. -/
structure Ledger (names : Nat → Option String) (kept : Nat → Nat → Prop) (e : Engine) : Prop where
  sound : e.locks.Sound
  filed : e.Filed names
  fits : ∀ s, (e.locks.account s).Fits names (kept s) (e.session s).targets (e.session s).mode

/-- One session takes the locks of a statement, does its work or gives them back; the accounts of all
others fit what they do. -/
structure Working (names : Nat → Option String) (kept : Nat → Nat → Prop) (session : Nat)
    (running : Running) (e : Engine) : Prop where
  sound : e.locks.Sound
  filed : e.Filed names
  fits : (e.locks.account session).Fits names (kept session) (running.tables.map Table.target)
    running.mode
  others : ∀ s, s ≠ session →
    (e.locks.account s).Fits names (kept s) (e.session s).targets (e.session s).mode

variable {config : Config} {disk : Disk} {e : Engine} {m : Move} {r : Request}
  {names names' : Nat → Option String} {kept kept' : Nat → Nat → Prop} {session : Nat}
  {running : Running} {pending : List Table} {t : Table}

/-- More numbers stand for names. -/
def Extends (names names' : Nat → Option String) : Prop :=
  ∀ n name, names n = some name → names' n = some name

/-- Whether a statement asks for the exclusive lock of a table while the session's exclusive lock of
another table of that name is recorded.  Its grant would overwrite that record. -/
def overwrites (e : Engine) : Move → Bool
  | .execute session statement =>
    match e.tables (e.session session).database (lockPlan statement).1, (lockPlan statement).2 with
    | .ok tables, .exclusive =>
      tables.any fun t =>
        (e.locks.recorded? session .exclusive t.qualifiedName).any fun n => n ≠ t.number
    | _, _ => false
  | _ => false

/-- What moves lead to that overwrite no record. -/
inductive Tidy (config : Config) (disk : Disk) : Engine → Prop where
  | start : Tidy config disk (.start config disk)
  | move {e : Engine} {m : Move} (h : Tidy config disk e) (hm : e.Allows m)
      (hrecords : e.overwrites m = false) : Tidy config disk (e.after m)

/-- Whether a session is outside a transaction and no statement of it waits. -/
def Over (e : Engine) (session : Nat) : Prop :=
  (e.session session).inTransaction = false ∧ (e.session session).running = none

/-! ## Tables and their names -/

theorem filed_start (config : Config) (disk : Disk) :
    (Engine.start config disk).Filed fun _ => none where
  databases := SortedMap.ascending_empty
  tables _ := SortedMap.ascending_empty
  found _ _ _ h := by cases h
  fresh _ _ := rfl

theorem exists_found {d : Nat} {list : List String} {tables : List Table}
    (h : e.tables d list = .ok tables) (ht : t ∈ tables) :
    ∃ name ∈ list, (e.database d).tables.get? name = some t := by
  induction list generalizing tables with
  | nil =>
    cases h
    cases ht
  | cons name rest ih =>
    rw [Engine.tables, List.mapM_cons] at h
    obtain ⟨first, hfirst, h⟩ := Result.bind_eq_ok.1 h
    obtain ⟨later, hlater, h⟩ := Result.bind_eq_ok.1 h
    cases h
    rcases List.mem_cons.1 ht with rfl | ht
    · refine ⟨name, List.mem_cons_self, ?_⟩
      rw [table] at hfirst
      split at hfirst
      · rename_i found hfound
        exact hfound.trans (congrArg some (Except.ok.inj hfirst))
      · cases hfirst
    · obtain ⟨name, hname, hfound⟩ := ih hlater ht
      exact ⟨name, List.mem_cons_of_mem _ hname, hfound⟩

theorem Filed.known (h : e.Filed names) {d : Nat} {list : List String} {tables : List Table}
    (hfound : e.tables d list = .ok tables) (ht : t ∈ tables) :
    names t.number = some t.qualifiedName := by
  obtain ⟨name, -, hname⟩ := exists_found hfound ht
  exact (h.found d name t hname).2.2

/-- The qualified names of one database tell its tables apart. -/
theorem Filed.eq_of_qualifiedName (h : e.Filed names) {d : Nat} {name other : String} {u : Table}
    (ht : (e.database d).tables.get? name = some t)
    (hu : (e.database d).tables.get? other = some u) (heq : t.qualifiedName = u.qualifiedName) :
    t = u := by
  obtain ⟨rfl, hdatabase, -⟩ := h.found d name t ht
  obtain ⟨rfl, hdatabase', -⟩ := h.found d other u hu
  rw [Table.qualifiedName, Table.qualifiedName, hdatabase, hdatabase', String.append_right_inj] at heq
  rw [heq, hu] at ht
  exact (Option.some.inj ht).symm

theorem Filed.number_eq (h : e.Filed names) {d : Nat} {list : List String} {tables : List Table}
    (hfound : e.tables d list = .ok tables) {u : Table} (ht : t ∈ tables) (hu : u ∈ tables)
    (heq : t.qualifiedName = u.qualifiedName) : t.number = u.number := by
  obtain ⟨name, -, hname⟩ := exists_found hfound ht
  obtain ⟨other, -, hother⟩ := exists_found hfound hu
  rw [h.eq_of_qualifiedName hname hother heq]

/-- The engine with other tables in a database. -/
def withTables (e : Engine) (number : Nat) (tables : SortedMap String Table) : Engine :=
  { e with databases := e.databases.modify number fun d => { d with tables := tables } }

theorem database_withTables (e : Engine) (number : Nat) (tables : SortedMap String Table) (d : Nat) :
    ((e.withTables number tables).database d).name = (e.database d).name ∧
      (((e.withTables number tables).database d).tables = (e.database d).tables ∨
        d = number ∧ ((e.withTables number tables).database d).tables = tables) := by
  have hget : (e.withTables number tables).databases.get? d =
      if d = number then (e.databases.get? d).map fun d => { d with tables := tables }
      else e.databases.get? d := SortedMap.get?_modify_eq _ _ _ _
  rw [database, database, hget]
  by_cases hd : d = number
  · rw [if_pos hd]
    cases e.databases.get? d with
    | none => exact ⟨rfl, .inl rfl⟩
    | some found => exact ⟨rfl, .inr ⟨hd, rfl⟩⟩
  · rw [if_neg hd]
    exact ⟨rfl, .inl rfl⟩

theorem Filed.withTables (h : e.Filed names) (number : Nat) {tables : SortedMap String Table}
    (hascending : tables.Ascending fun _ => True)
    (hfound : ∀ name t, tables.get? name = some t → t.name = name ∧
      t.database = (e.database number).name ∧ names t.number = some t.qualifiedName) :
    (e.withTables number tables).Filed names where
  databases := h.databases.modify _ _
  tables d := by
    obtain ⟨-, hsame | ⟨-, hnew⟩⟩ := database_withTables e number tables d
    · rw [hsame]
      exact h.tables d
    · rw [hnew]
      exact hascending
  found d name t ht := by
    obtain ⟨hname, htables⟩ := database_withTables e number tables d
    rw [hname]
    rcases htables with hsame | ⟨rfl, hnew⟩
    · exact h.found d name t (hsame ▸ ht)
    · exact hfound name t (hnew ▸ ht)
  fresh := h.fresh

/-- A number that was not used yet comes to stand for a name. -/
theorem Filed.coin (h : e.Filed names) (name : String) :
    ∃ names', Extends names names' ∧ names' e.nextTable = some name ∧
      ({ e with nextTable := e.nextTable + 1 } : Engine).Filed names' := by
  have hextends : Extends names fun n => if n = e.nextTable then some name else names n := by
    intro n other hn
    refine (if_neg ?_).trans hn
    rintro rfl
    rw [h.fresh _ (Nat.le_refl _)] at hn
    cases hn
  refine ⟨_, hextends, if_pos rfl, h.databases, h.tables, fun d key t ht => ?_, fun n hn => ?_⟩
  · obtain ⟨hkey, hdatabase, hnumber⟩ := h.found d key t ht
    exact ⟨hkey, hdatabase, hextends _ _ hnumber⟩
  · have hn : e.nextTable + 1 ≤ n := hn
    rw [if_neg (by omega)]
    exact h.fresh n (by omega)

/-- Only the databases and the numbers of tables to come matter. -/
theorem Filed.congr (h : e.Filed names) {e' : Engine} (hdatabases : e'.databases = e.databases)
    (hnext : e.nextTable ≤ e'.nextTable) : e'.Filed names := by
  have hdatabase (d : Nat) : e'.database d = e.database d := by
    rw [database, database, hdatabases]
  refine ⟨hdatabases ▸ h.databases, fun d => hdatabase d ▸ h.tables d, fun d name t ht => ?_,
    fun n hn => h.fresh n (Nat.le_trans hnext hn)⟩
  rw [hdatabase] at ht ⊢
  exact h.found d name t ht

/-- A new table is filed under a number that was not used before. -/
theorem Filed.enter (h : e.Filed names) (d : Nat) (name : String) (schema : Schema) :
    let made : Table := ⟨e.nextTable, (e.database d).name, name, schema⟩
    ∃ names', Extends names names' ∧ (({ e with nextTable := e.nextTable + 1 } : Engine).withTables d
      ((e.database d).tables.insert name made)).Filed names' := by
  intro made
  obtain ⟨names', hextends, hcoined, hfiled⟩ := h.coin made.qualifiedName
  have hinserted : ((e.database d).tables.insert name made).Ascending fun _ => True :=
    (hfiled.tables d).insert SortedMap.orderedOn_all trivial made
  refine ⟨names', hextends, hfiled.withTables d hinserted fun key t ht => ?_⟩
  rw [SortedMap.get?_insert_eq (h.tables d)] at ht
  split at ht
  · rename_i hkey
    cases ht
    exact ⟨hkey.symm, rfl, hcoined⟩
  · exact hfiled.found d key t ht

theorem Filed.createTable (h : e.Filed names) (d : Nat) (name : String) (schema : Schema) :
    ∃ names', Extends names names' ∧ ((Engine.createTable d name schema).run e).2.Filed names' := by
  rw [run_createTable]
  split
  · exact ⟨names, fun _ _ => id, h⟩
  · obtain ⟨names', hextends, hfiled⟩ := h.enter d name schema
    exact ⟨names', hextends, hfiled.congr rfl (Nat.le_refl _)⟩

theorem Filed.dropTable (h : e.Filed names) (d : Nat) (name : String) :
    ((Engine.dropTable d name).run e).2.Filed names := by
  rw [run_dropTable]
  cases e.table d name with
  | error failure => exact h
  | ok table =>
    refine (h.withTables d ((h.tables d).erase name) fun key t ht => ?_).congr rfl (Nat.le_refl _)
    rw [SortedMap.get?_erase_eq (h.tables d)] at ht
    split at ht
    · cases ht
    · exact h.found d key t ht

/-- A statement files its tables. -/
theorem Filed.perform (h : e.Filed names) (session : Session) (statement : Statement)
    (tables : List Table) :
    ∃ names', Extends names names' ∧
      ((perform session statement tables).run e).2.Filed names' := by
  have hrest (hstatement : altersCatalog statement = false) : ∃ names', Extends names names' ∧
      ((Engine.perform session statement tables).run e).2.Filed names' := by
    obtain ⟨space, hspace⟩ := perform_eq_withSpace hstatement e session tables
    rw [hspace]
    exact ⟨names, fun _ _ => id, h.congr rfl (Nat.le_refl _)⟩
  cases statement with
  | createTable name schema =>
    simp only [Engine.perform, Action.run_bind_pure]
    exact h.createTable session.database name schema
  | dropTable name =>
    simp only [Engine.perform, Action.run_bind_pure]
    exact ⟨names, fun _ _ => id, h.dropTable session.database name⟩
  | _ => exact hrest rfl

/-! ## The work of a statement -/

theorem Ledger.mono (h : e.Ledger names kept) (hkept : ∀ s n, kept s n → kept' s n) :
    e.Ledger names kept' :=
  ⟨h.sound, h.filed, fun s => (h.fits s).mono (fun _ _ => id) (hkept s)⟩

/-- Nothing has changed for locks, and every session has the statement that it had. -/
theorem Ledger.of_same {e' : Engine} (h : e.Ledger names kept) (hlocks : e'.locks = e.locks)
    (hfiled : e'.Filed names)
    (hrunning : ∀ s, (e'.session s).running = (e.session s).running) : e'.Ledger names kept := by
  refine ⟨hlocks ▸ h.sound, hfiled, fun s => ?_⟩
  rw [hlocks, Session.targets, Session.mode, hrunning]
  exact h.fits s

theorem locks_release (e : Engine) (session : Nat) (t : Table) (mode : LockMode) :
    (e.release session t mode).2.locks = (e.locks.release ⟨session, t.target, mode⟩).2 := by
  simp only [release]
  split <;> rfl

theorem sessions_release (e : Engine) (session : Nat) (t : Table) (mode : LockMode) :
    (e.release session t mode).2.sessions = e.sessions := by
  simp only [release]
  split <;> rfl

theorem sessions_releaseEach (e : Engine) (session : Nat) (mode : LockMode) (tables : List Table) :
    (e.releaseEach session mode tables).sessions = e.sessions := by
  induction tables generalizing e with
  | nil => rfl
  | cons t rest ih => exact (ih _).trans (sessions_release e session t mode)

theorem finish_snd (session : Nat) (running : Running) (e : Engine) :
    (finish session running e).2 =
      if releasesLocks (e.session session) running.statement then
        ((perform (e.session session) running.statement running.tables).run e).2.releaseEach session
          running.mode running.tables
      else ((perform (e.session session) running.statement running.tables).run e).2 := rfl

namespace Working

/-- A session asks for the lock of one of the tables of its statement. -/
theorem request (h : e.Working names kept session running) (ht : t ∈ running.tables) :
    ({ e with locks := (e.locks.request ⟨session, t.target, running.mode⟩).2 } : Engine).Working names
      kept session running := by
  have haccount := LockManager.account_request h.sound ⟨session, t.target, running.mode⟩
  refine ⟨(LockManager.serves_request h.sound _).sound, ?_, ?_, fun s hs => ?_⟩
  · exact h.filed.congr rfl (Nat.le_refl _)
  · dsimp only
    rw [haccount]
    split
    · rename_i hgains
      exact h.fits.gain (List.mem_map_of_mem ht) (LockManager.not_holds_of_gains h.sound hgains.2)
    · exact h.fits
  · dsimp only
    rw [haccount, if_neg fun hboth => hs hboth.1]
    exact h.others s hs

theorem account_release (h : e.Working names kept session running) (t : Table) (s : Nat) :
    (e.release session t running.mode).2.locks.account s =
      if s = session then (e.locks.account s).lose t.target running.mode else e.locks.account s := by
  rw [locks_release]
  exact LockManager.account_release h.sound ⟨session, t.target, running.mode⟩ s

/-- A session gives back the lock of one of the tables of its statement. -/
theorem release (h : e.Working names kept session running) (ht : t ∈ running.tables) :
    (e.release session t running.mode).2.Working names kept session running := by
  have hcatalog : (e.release session t running.mode).2.Filed names := by
    simp only [Engine.release]
    split <;> exact h.filed.congr rfl (Nat.le_refl _)
  refine ⟨?_, hcatalog, ?_, fun s hs => ?_⟩
  · rw [locks_release]
    exact (LockManager.serves_release h.sound _).sound
  · rw [h.account_release, if_pos rfl]
    exact h.fits.lose (List.mem_map_of_mem ht)
  · rw [h.account_release, if_neg hs, Engine.session, sessions_release]
    exact h.others s hs

/-- A session gives back the locks of tables; what it gave back is not recorded any more. -/
theorem releaseEach (h : e.Working names kept session running) {tables : List Table}
    (htables : ∀ t ∈ tables, t ∈ running.tables) :
    (e.releaseEach session running.mode tables).Working names kept session running ∧
      ∀ name, name ∈ tables.map Table.qualifiedName ∨
        (e.locks.account session).recorded running.mode name = none →
      ((e.releaseEach session running.mode tables).locks.account session).recorded running.mode name =
        none := by
  induction tables generalizing e with
  | nil => exact ⟨h, fun name hname => hname.resolve_left List.not_mem_nil⟩
  | cons t rest ih =>
    obtain ⟨ht, hrest⟩ := List.forall_mem_cons.1 htables
    obtain ⟨hworking, hnone⟩ := ih (h.release ht) hrest
    refine ⟨hworking, fun name hname => hnone name ?_⟩
    rw [h.account_release, if_pos rfl, Account.lose]
    dsimp only
    by_cases heq : name = t.qualifiedName
    · exact .inr (if_pos ⟨rfl, heq⟩)
    · rw [if_neg fun hboth => heq hboth.2]
      exact hname.imp_left fun hin => (List.mem_cons.1 hin).resolve_left heq

/-- A session whose statement is done has an account that fits. -/
theorem done (h : e.Working names kept session running) (hnone : (e.session session).running = none)
    (hfits : (e.locks.account session).Fits names (kept session) [] .exclusive) :
    e.Ledger names kept := by
  refine ⟨h.sound, h.filed, fun s => ?_⟩
  by_cases hs : s = session
  · rw [hs, Session.targets, Session.mode, hnone]
    exact hfits
  · exact h.others s hs

/-- A session does the work of its statement and gives back its locks, unless it may keep them. -/
theorem finish (h : e.Working names kept session running)
    (hnone : (e.session session).running = none)
    (hplan : running.mode = (lockPlan running.statement).2)
    (hkept : releasesLocks (e.session session) running.statement = false →
      ∀ t ∈ running.tables, kept session t.number) :
    ∃ names', (finish session running e).2.Ledger names' kept := by
  have hsame := sameClients_perform e (e.session session) running.statement running.tables
  obtain ⟨names', hnames, hfiled⟩ :=
    h.filed.perform (e.session session) running.statement running.tables
  rw [finish_snd]
  generalize ((perform (e.session session) running.statement running.tables).run e).2 = done
    at hsame hfiled ⊢
  have hworking : done.Working names' kept session running := by
    refine ⟨hsame.locks ▸ h.sound, hfiled, ?_, fun s hs => ?_⟩
    · rw [hsame.locks]
      exact h.fits.mono hnames fun _ => id
    · rw [hsame.locks, Engine.session, hsame.sessions]
      exact (h.others s hs).mono hnames fun _ => id
  have hrunning : (done.session session).running = none := by
    rw [Engine.session, hsame.sessions]
    exact hnone
  refine ⟨names', ?_⟩
  split
  · obtain ⟨hafter, hgone⟩ := hworking.releaseEach fun _ ht => ht
    have hnothing : ∀ u ∈ running.tables.map Table.target,
        ((done.releaseEach session running.mode running.tables).locks.account session).recorded
          running.mode u.name = none := by
      intro u hu
      obtain ⟨t, ht, rfl⟩ := List.mem_map.1 hu
      exact hgone t.qualifiedName (.inl (List.mem_map_of_mem ht))
    refine hafter.done ?_ (hafter.fits.finish (fun hmode u hu => ?_) fun hmode u hu => .inl ?_)
    · rw [Engine.session, sessions_releaseEach]
      exact hrunning
    · exact hmode ▸ hnothing u hu
    · exact hmode ▸ hnothing u hu
  · rename_i hreleases
    rw [Bool.not_eq_true] at hreleases
    refine hworking.done hrunning (hworking.fits.finish (fun hmode => ?_) fun _ u hu => .inr ?_)
    · -- a statement that keeps its locks has exclusive ones
      rw [hplan] at hmode
      cases hstatement : running.statement <;> rw [hstatement] at hmode hreleases <;>
        simp [lockPlan, releasesLocks] at hmode hreleases
    · obtain ⟨t, ht, rfl⟩ := List.mem_map.1 hu
      exact hkept hreleases t ht

/-- A session waits with its statement. -/
theorem wait (h : e.Working names kept session running) {s : Session}
    (hs : e.sessions.get? session = some s) (rest : List Table) :
    (e.modifySession session fun s =>
      { s with running := some { running with pending := rest } }).Ledger names kept := by
  refine ⟨h.sound, h.filed.congr rfl (Nat.le_refl _), fun k => ?_⟩
  by_cases hk : k = session
  · rw [hk, session_modifySession_self e _ hs]
    exact h.fits
  · rw [session_modifySession e session k _ hk]
    exact h.others k hk

/-- A session takes the locks of its statement, as far as it gets them. -/
theorem takeLocks (h : e.Working names kept session running) {s : Session}
    (hs : e.sessions.get? session = some s) (hnone : s.running = none)
    (hplan : running.mode = (lockPlan running.statement).2)
    (hkept : releasesLocks s running.statement = false → ∀ t ∈ running.tables, kept session t.number)
    (hpending : ∀ t ∈ pending, t ∈ running.tables) :
    ∃ names', (takeLocks session running pending e).2.Ledger names' kept := by
  induction pending generalizing e with
  | nil =>
    have hsession : e.session session = s := by
      rw [Engine.session, hs]
      rfl
    exact h.finish (hsession ▸ hnone) hplan (hsession ▸ hkept)
  | cons t rest ih =>
    obtain ⟨ht, hrest⟩ := List.forall_mem_cons.1 hpending
    rw [takeLocks_cons]
    split
    · exact ih (h.request ht) hs hrest
    · exact ⟨names, (h.request ht).wait hs rest⟩

end Working

/-! ## Moves -/

theorem session_of_ready (hready : e.ready session = true) :
    ∃ s, e.sessions.get? session = some s ∧ e.session session = s ∧ s.running = none := by
  rw [ready, Option.any_eq_true] at hready
  obtain ⟨s, hs, hnone⟩ := hready
  exact ⟨s, hs, by rw [Engine.session, hs]; rfl, Option.isNone_iff_eq_none.1 hnone⟩

theorem number_eq_of_recorded {statement : Statement}
    (hrecords : e.overwrites (.execute session statement) = false) {tables : List Table}
    (htables : e.tables (e.session session).database (lockPlan statement).1 = .ok tables)
    (hmode : (lockPlan statement).2 = .exclusive) (ht : t ∈ tables) {n : Nat}
    (hn : e.locks.recorded? session .exclusive t.qualifiedName = some n) : n = t.number := by
  rw [overwrites, htables, hmode] at hrecords
  have hsame := List.any_eq_false.1 hrecords t ht
  simpa [hn] using hsame

/-- A statement begins: its tables are found, and none of their names is recorded for the lock of
another table. -/
theorem Ledger.execute (h : e.Ledger names kept) (hready : e.ready session = true)
    {statement : Statement} (hrecords : e.overwrites (.execute session statement) = false)
    (hkept : releasesLocks (e.session session) statement = false → ∀ tables,
      e.tables (e.session session).database (lockPlan statement).1 = .ok tables →
        ∀ t ∈ tables, kept session t.number) :
    ∃ names', (e.execute session statement).2.Ledger names' kept := by
  obtain ⟨s, hs, hsession, hnone⟩ := session_of_ready hready
  rw [execute_eq]
  cases htables : e.tables (e.session session).database (lockPlan statement).1 with
  | error failure => exact ⟨names, h⟩
  | ok tables =>
    have hidle := h.fits session
    rw [hsession, Session.targets, Session.mode, hnone] at hidle
    have hworking : e.Working names kept session
        { statement := statement, tables := tables, mode := (lockPlan statement).2, pending := [] } := by
      refine ⟨h.sound, h.filed, hidle.begin ?_ ?_ ?_, fun k _ => h.fits k⟩
      · intro u hu
        obtain ⟨t, ht, rfl⟩ := List.mem_map.1 hu
        exact h.filed.known htables ht
      · intro u hu v hv heq
        obtain ⟨t, ht, rfl⟩ := List.mem_map.1 hu
        obtain ⟨w, hw, rfl⟩ := List.mem_map.1 hv
        exact h.filed.number_eq htables ht hw heq
      · intro hmode u hu n hn
        obtain ⟨t, ht, rfl⟩ := List.mem_map.1 hu
        exact number_eq_of_recorded hrecords htables hmode ht hn
    refine hworking.takeLocks hs hnone rfl ?_ fun _ ht => ht
    exact fun hreleases => hkept (hsession ▸ hreleases) tables htables

/-- A statement that waits tries again. -/
theorem Ledger.resume (h : e.Ledger names kept) (hcoherent : e.Coherent)
    (hr : r ∈ e.locks.requests)
    (hkept : ∀ running, (e.session r.session).running = some running →
      releasesLocks (e.session r.session) running.statement = false →
        ∀ t ∈ running.tables, kept r.session t.number) :
    ∃ names', (e.resume r).2.Ledger names' kept := by
  obtain ⟨running, table, hrunning, hrequest, hmode, taken, htables, -⟩ := hcoherent.awaits r hr
  obtain ⟨s, hs⟩ := (hcoherent.awaits r hr).exists_session
  have hsession : e.session r.session = s := by
    rw [Engine.session, hs]
    rfl
  have hin : table ∈ running.tables := by simp [htables]
  have hfits := h.fits r.session
  rw [Session.targets, Session.mode, hrunning] at hfits
  have haccount := LockManager.account_retry h.sound r
  have hsound := (LockManager.serves_retry h.sound r).sound
  have hfiled : ({ e with locks := (e.locks.retry r).2 } : Engine).Filed names :=
    h.filed.congr rfl (Nat.le_refl _)
  have hothers (k : Nat) (hk : k ≠ r.session) :
      (e.locks.retry r).2.account k = e.locks.account k := by
    rw [haccount, if_neg fun hall => hk hall.1]
  have hafter : ((e.locks.retry r).2.account r.session).Fits names (kept r.session)
      (running.tables.map Table.target) running.mode := by
    rw [haccount]
    split
    · rename_i hgains
      have hnew := LockManager.not_holds_of_gains h.sound hgains.2.2
      rw [hrequest] at hnew ⊢
      exact hfits.gain (List.mem_map_of_mem hin) hnew
    · exact hfits
  rw [resume_eq]
  split
  · rename_i running' _ hrunning'
    obtain rfl : running = running' := Option.some.inj (hrunning.symm.trans hrunning')
    have hworking : (e.woken r).Working names kept r.session running := by
      refine ⟨hsound, ⟨hfiled.databases, hfiled.tables, hfiled.found, hfiled.fresh⟩, hafter,
        fun k hk => ?_⟩
      rw [woken, session_modifySession _ _ _ _ hk]
      exact (hothers k hk).symm ▸ h.fits k
    have hwoken : (e.woken r).sessions.get? r.session = some { s with running := none } := by
      rw [woken, modifySession, SortedMap.get?_modify_eq, if_pos rfl, hs]
      rfl
    refine hworking.takeLocks hwoken rfl hmode ?_ fun t ht => by simp [htables, ht]
    exact fun hreleases => hkept running hrunning (hsession ▸ hreleases)
  · refine ⟨names, hsound, hfiled, fun k => ?_⟩
    by_cases hk : k = r.session
    · subst hk
      show Account.Fits _ _ (e.session r.session).targets (e.session r.session).mode _
      rw [Session.targets, Session.mode, hrunning]
      exact hafter
    · dsimp only
      rw [hothers k hk]
      exact h.fits k

/-- A session between two statements gives everything back; after that its account is blank, and it
does not matter any more what it may keep. -/
theorem Ledger.releaseAll (h : e.Ledger names kept) (hnone : (e.session session).running = none)
    (hkept : ∀ s, s ≠ session → ∀ n, kept s n → kept' s n) :
    (e.releaseAll session).Ledger names kept' := by
  refine ⟨(LockManager.serves_releaseAll h.sound session).sound,
    h.filed.congr rfl (Nat.le_refl _), fun s => ?_⟩
  show ((e.locks.releaseAll session).2.account s).Fits names (kept' s) (e.session s).targets
    (e.session s).mode
  by_cases hs : s = session
  · subst hs
    rw [Session.targets, Session.mode, hnone, LockManager.account_releaseAll_eq_blank h.sound (h.fits s)]
    exact LockManager.Account.fits_blank names (kept' s)
  · rw [LockManager.account_releaseAll_of_ne h.sound hs]
    exact (h.fits s).mono (fun _ _ => id) (hkept s hs)

theorem ledger_start (config : Config) (disk : Disk) (kept : Nat → Nat → Prop) :
    (Engine.start config disk).Ledger (fun _ => none) kept :=
  ⟨LockManager.sound_empty, filed_start config disk, fun s =>
    (LockManager.account_empty s).symm ▸ LockManager.Account.fits_blank _ (kept s)⟩

theorem database_createDatabase (h : e.databases.Ascending fun _ => True) {name : String}
    (hnew : e.registry.contains name = false) (d : Nat) :
    (e.createDatabase name).database d =
      if d = e.nextDatabase then { name := name } else e.database d := by
  rw [Engine.createDatabase, hnew, if_neg Bool.false_ne_true, database]
  dsimp only
  rw [SortedMap.get?_insert_eq h]
  split <;> rfl

theorem Filed.createDatabase (h : e.Filed names) (name : String) :
    (e.createDatabase name).Filed names := by
  cases hnew : e.registry.contains name with
  | true =>
    rw [Engine.createDatabase, hnew, if_pos rfl]
    exact h
  | false =>
    have hdatabase := database_createDatabase h.databases hnew
    refine ⟨?_, fun d => ?_, fun d key t ht => ?_, ?_⟩
    · rw [Engine.createDatabase, hnew, if_neg Bool.false_ne_true]
      exact h.databases.insert SortedMap.orderedOn_all trivial _
    · rw [hdatabase]
      split
      · exact SortedMap.ascending_empty
      · exact h.tables d
    · rw [hdatabase] at ht ⊢
      split at ht
      · cases ht
      · rename_i hd
        rw [if_neg hd]
        exact h.found d key t ht
    · rw [Engine.createDatabase, hnew, if_neg Bool.false_ne_true]
      exact h.fresh

theorem Ledger.createDatabase (h : e.Ledger names kept) (name : String) :
    (e.createDatabase name).Ledger names kept := by
  refine h.of_same ?_ (h.filed.createDatabase name) fun _ => ?_
  all_goals
    rw [Engine.createDatabase]
    split <;> rfl

theorem session_connect (hcoherent : e.Coherent) (name : String) (s : Nat) :
    (((connect name).run e).2.session s).running = (e.session s).running ∧
      (((connect name).run e).2.session s).inTransaction = (e.session s).inTransaction := by
  rw [run_connect]
  cases e.databaseNumber name with
  | error failure => exact ⟨rfl, rfl⟩
  | ok database =>
    -- the new number stood for no session, which has no statement and no transaction either
    have hget : (e.sessions.insert e.nextSession { database := database }).get? s =
        if s = e.nextSession then some { database := database } else e.sessions.get? s :=
      SortedMap.get?_insert_eq hcoherent.sessions _ _ _
    simp only [Engine.session, hget]
    split
    · rename_i hs
      rw [hs, hcoherent.fresh _ (Nat.le_refl _)]
      exact ⟨rfl, rfl⟩
    · exact ⟨rfl, rfl⟩

theorem Ledger.connect (h : e.Ledger names kept) (hcoherent : e.Coherent) (name : String) :
    ((connect name).run e).2.Ledger names kept := by
  refine h.of_same ?_ ?_ fun s => (session_connect hcoherent name s).1
  all_goals
    rw [run_connect]
    cases e.databaseNumber name
  · rfl
  · rfl
  · exact h.filed
  · exact h.filed.congr rfl (Nat.le_refl _)

/-- What a session is after another one, or it itself, was changed. -/
theorem session_modifySession_eq (e : Engine) (number s : Nat) (f : Session → Session) :
    (e.modifySession number f).session s =
      if s = number ∧ (e.sessions.get? number).isSome then f (e.session s) else e.session s := by
  by_cases hs : s = number
  · subst hs
    cases hget : e.sessions.get? s with
    | none =>
      rw [if_neg (by simp), Engine.session, modifySession, SortedMap.get?_modify_eq, if_pos rfl, hget,
        Engine.session, hget]
      rfl
    | some found =>
      rw [session_modifySession_self e f hget, if_pos ⟨rfl, rfl⟩, Engine.session, hget]
      rfl
  · rw [session_modifySession e number s f hs, if_neg fun hboth => hs hboth.1]

theorem session_disconnect (hcoherent : e.Coherent) (number s : Nat) :
    (e.disconnect number).session s = if s = number then { database := 0 } else e.session s := by
  have hget : (e.disconnect number).sessions.get? s =
      if s = number then none else e.sessions.get? s :=
    SortedMap.get?_erase_eq hcoherent.sessions number s
  rw [Engine.session, hget]
  split <;> rfl

theorem Ledger.commit (h : e.Ledger names kept) (hready : e.ready session = true)
    (hkept : ∀ s, s ≠ session → ∀ n, kept s n → kept' s n) :
    (e.commit session).Ledger names kept' := by
  obtain ⟨s, -, hsession, hnone⟩ := session_of_ready hready
  have hreleased := h.releaseAll (hsession ▸ hnone) hkept
  refine hreleased.of_same rfl (h.filed.congr rfl (Nat.le_refl _))
    fun k => ?_
  rw [Engine.commit, session_modifySession_eq]
  split <;> rfl

theorem Ledger.disconnect (h : e.Ledger names kept) (hcoherent : e.Coherent)
    (hready : e.ready session = true) (hkept : ∀ s, s ≠ session → ∀ n, kept s n → kept' s n) :
    (e.disconnect session).Ledger names kept' := by
  obtain ⟨s, -, hsession, hnone⟩ := session_of_ready hready
  have hreleased := h.releaseAll (hsession ▸ hnone) hkept
  refine hreleased.of_same rfl (h.filed.congr rfl (Nat.le_refl _))
    fun k => ?_
  rw [session_disconnect hcoherent]
  split
  · rename_i hk
    subst hk
    exact (hsession ▸ hnone : (e.session k).running = none).symm
  · rfl

/-! ## Transactions -/

theorem sessions_finish (session : Nat) (running : Running) (e : Engine) :
    (finish session running e).2.sessions = e.sessions := by
  have hsame := sameClients_perform e (e.session session) running.statement running.tables
  rw [finish_snd]
  split
  · rw [sessions_releaseEach, hsame.sessions]
  · exact hsame.sessions

/-- Taking locks and doing the work begins and ends no transaction. -/
theorem inTransaction_takeLocks (e : Engine) (session : Nat) (running : Running)
    (pending : List Table) (s : Nat) :
    ((takeLocks session running pending e).2.session s).inTransaction =
      (e.session s).inTransaction := by
  induction pending generalizing e with
  | nil =>
    show ((finish session running e).2.session s).inTransaction = _
    rw [Engine.session, sessions_finish]
    rfl
  | cons t rest ih =>
    rw [takeLocks_cons]
    split
    · exact ih _
    · rw [session_modifySession_eq]
      split <;> rfl

theorem inTransaction_execute (e : Engine) (session : Nat) (statement : Statement) (s : Nat) :
    ((e.execute session statement).2.session s).inTransaction = (e.session s).inTransaction := by
  rw [execute_eq]
  split
  · rfl
  · exact inTransaction_takeLocks e session _ _ s

theorem inTransaction_resume (e : Engine) (r : Request) (s : Nat) :
    ((e.resume r).2.session s).inTransaction = (e.session s).inTransaction := by
  rw [resume_eq]
  split
  · refine (inTransaction_takeLocks _ _ _ _ s).trans ?_
    rw [woken, session_modifySession_eq]
    split <;> rfl
  · rfl

theorem releasesLocks_eq_true {s : Session} (h : s.inTransaction = false) (statement : Statement) :
    releasesLocks s statement = true := by
  cases statement <;> simp [releasesLocks, h]

/-- The ledger when sessions may keep exclusive locks as long as they are in a transaction. -/
def Balanced (e : Engine) : Prop :=
  ∃ names, e.Ledger names fun s _ => (e.session s).inTransaction = true

/-- Every move that overwrites no record keeps the ledger. -/
theorem Balanced.after (h : e.Balanced) (hcoherent : e.Coherent) (hm : e.Allows m)
    (hrecords : e.overwrites m = false) : (e.after m).Balanced := by
  obtain ⟨names, h⟩ := h
  have hkept {s : Nat} {statement : Statement}
      (hreleases : releasesLocks (e.session s) statement = false) :
      (e.session s).inTransaction = true := by
    by_contra hout
    rw [releasesLocks_eq_true (Bool.not_eq_true _ ▸ hout)] at hreleases
    cases hreleases
  cases m with
  | createDatabase name =>
    refine ⟨names, (h.createDatabase name).mono fun s _ hs => ?_⟩
    have hsame : (e.createDatabase name).sessions = e.sessions := by
      rw [createDatabase]
      split <;> rfl
    show ((e.createDatabase name).session s).inTransaction = true
    rw [Engine.session, hsame]
    exact hs
  | connect database =>
    exact ⟨names, (h.connect hcoherent database).mono fun s _ hs =>
      (session_connect hcoherent database s).2.trans hs⟩
  | beginTransaction session =>
    have hsession (s : Nat) := session_modifySession_eq e session s fun s =>
      { s with inTransaction := true }
    have hsame : (e.beginTransaction session).Ledger names fun s _ =>
        (e.session s).inTransaction = true := by
      refine h.of_same rfl (h.filed.congr rfl (Nat.le_refl _))
        fun s => ?_
      rw [beginTransaction, hsession]
      split <;> rfl
    refine ⟨names, hsame.mono fun s _ hs => ?_⟩
    show ((e.beginTransaction session).session s).inTransaction = true
    rw [beginTransaction, hsession]
    split
    · rfl
    · exact hs
  | commit session =>
    refine ⟨names, h.commit hm fun s hs _ hin => ?_⟩
    show ((e.commit session).session s).inTransaction = true
    rw [commit, session_modifySession _ _ _ _ hs]
    exact hin
  | disconnect session =>
    refine ⟨names, h.disconnect hcoherent hm fun s hs _ hin => ?_⟩
    show ((e.disconnect session).session s).inTransaction = true
    rw [session_disconnect hcoherent, if_neg hs]
    exact hin
  | execute session statement =>
    obtain ⟨names', h'⟩ := h.execute hm hrecords fun hreleases _ _ _ _ => hkept hreleases
    exact ⟨names', h'.mono fun s _ hs => (inTransaction_execute e session statement s).trans hs⟩
  | resume r =>
    obtain ⟨names', h'⟩ := h.resume hcoherent hm fun _ _ hreleases _ _ => hkept hreleases
    exact ⟨names', h'.mono fun s _ hs => (inTransaction_resume e r s).trans hs⟩

theorem Tidy.reachable (h : Tidy config disk e) : Reachable config disk e := by
  induction h with
  | start => exact .start
  | move _ hm _ ih => exact .move ih hm

theorem Tidy.balanced (h : Tidy config disk e) : e.Balanced := by
  induction h with
  | start => exact ⟨_, ledger_start config disk _⟩
  | move h hm hrecords ih => exact ih.after h.reachable.coherent hm hrecords

/-- In any order of the moves of any number of sessions, a session that is outside a transaction and
has no statement waiting holds no lock, of a table that exists or of one that was dropped, and a
commit or a disconnect brings a session there.  The moves may make, drop and make tables again; but
no statement may ask for the exclusive lock of a table while the session holds the one of another
table that had the same name. -/
theorem not_holds_of_over (h : Tidy config disk e) :
    (∀ session, e.Over session → ∀ mode n, (e.locks.lockOf n).holds mode session = false) ∧
      (∀ session, e.Allows (.commit session) → (e.after (.commit session)).Over session) ∧
      ∀ session, e.Allows (.disconnect session) → (e.after (.disconnect session)).Over session := by
  have hcoherent := h.reachable.coherent
  refine ⟨fun session hover mode n => ?_, fun session hm => ?_, fun session _ => ?_⟩
  · obtain ⟨names, hledger⟩ := h.balanced
    have hfits := hledger.fits session
    rw [Session.targets, Session.mode, hover.2] at hfits
    refine Bool.eq_false_iff.2 fun hn => ?_
    obtain ⟨name, hname⟩ := (hfits.held mode n).1 hn
    cases mode with
    | shared => cases (hfits.shared name n hname).1
    | exclusive =>
      rcases hfits.exclusive name n hname with hin | ⟨-, hin⟩
      · rw [hover.1] at hin
        cases hin
      · cases hin
  · obtain ⟨s, hs, hsession, hnone⟩ := session_of_ready hm
    have hafter : (e.after (.commit session)).session session = { s with inTransaction := false } :=
      session_modifySession_self (e.releaseAll session) _ hs
    rw [Over, hafter]
    exact ⟨rfl, hnone⟩
  · have hafter : (e.after (.disconnect session)).session session = { database := 0 } := by
      rw [after, session_disconnect hcoherent, if_pos rfl]
    rw [Over, hafter]
    exact ⟨rfl, rfl⟩

/-- The only table of an exclusive statement. -/
theorem exists_singleton {statement : Statement} (hmode : (lockPlan statement).2 = .exclusive)
    {d : Nat} {tables : List Table} (htables : e.tables d (lockPlan statement).1 = .ok tables)
    (ht : t ∈ tables) : tables = [t] := by
  have hone {name : String} (h : e.tables d [name] = .ok tables) : tables = [t] := by
    rw [Engine.tables, List.mapM_cons] at h
    obtain ⟨found, -, h⟩ := Result.bind_eq_ok.1 h
    obtain rfl : [found] = tables := Except.ok.inj h
    rw [List.mem_singleton.1 ht]
  cases statement with
  | createTable name schema =>
    cases htables
    cases ht
  | select => cases hmode
  | _ => exact hone htables

/-- The work of a statement and the release of its locks do not bring back a lost lock. -/
theorem lost_finish (h : e.locks.Sound) {n : Nat} (hlost : (e.locks.account session).Lost n)
    (hne : ∀ t ∈ running.tables, n ≠ t.number) :
    ((finish session running e).2.locks.account session).Lost n := by
  have hrelease {tables : List Table} {e : Engine} (h : e.locks.Sound)
      (hlost : (e.locks.account session).Lost n) (hne : ∀ t ∈ tables, n ≠ t.number) :
      ((e.releaseEach session running.mode tables).locks.account session).Lost n := by
    induction tables generalizing e with
    | nil => exact hlost
    | cons t rest ih =>
      obtain ⟨ht, hrest⟩ := List.forall_mem_cons.1 hne
      refine ih (e := (e.release session t running.mode).2) ?_ ?_ hrest
      · rw [locks_release]
        exact (LockManager.serves_release h _).sound
      · rw [locks_release, LockManager.account_release h, if_pos rfl]
        exact hlost.lose ht running.mode
  have hsame := sameClients_perform e (e.session session) running.statement running.tables
  rw [finish_snd]
  split
  · refine hrelease ?_ ?_ hne
    · exact hsame.locks ▸ h
    · exact hsame.locks ▸ hlost
  · exact hsame.locks ▸ hlost

/-- A statement that does overwrite a record, and is done, leaves behind a lock that the commit does
not give back. -/
theorem holds_of_overwrites (h : Tidy config disk e) {statement : Statement}
    (hready : e.Allows (.execute session statement))
    (hrecords : e.overwrites (.execute session statement) = true) {result : Result Answer}
    (hdone : e.progress? (.execute session statement) = some (.done result)) :
    ∃ n, (((e.after (.execute session statement)).after (.commit session)).locks.lockOf n).holds
      .exclusive session = true := by
  have hcoherent := h.reachable.coherent
  have hsound : (e.execute session statement).2.locks.Sound := (hcoherent.execute hready statement).locks
  obtain ⟨names, hledger⟩ := h.balanced
  have hfits := hledger.fits session
  suffices hlost : ∃ n, ((e.execute session statement).2.locks.account session).Lost n by
    obtain ⟨n, hn⟩ := hlost
    exact ⟨n, hn.releaseAll hsound⟩
  rw [overwrites] at hrecords
  rw [progress?, execute_eq] at hdone
  rw [execute_eq]
  cases htables : e.tables (e.session session).database (lockPlan statement).1 with
  | error failure => simp [htables] at hrecords
  | ok tables =>
    cases hmode : (lockPlan statement).2 with
    | shared => simp [htables, hmode] at hrecords
    | exclusive =>
      simp only [htables, hmode, List.any_eq_true] at hrecords hdone ⊢
      obtain ⟨t, ht, hrecord⟩ := hrecords
      obtain ⟨n, hn, hne⟩ := (Option.any_eq_true _ _).1 hrecord
      have hne : n ≠ t.number := of_decide_eq_true hne
      have hknown := hledger.filed.known htables ht
      obtain rfl := exists_singleton hmode htables ht
      have hnot : (e.locks.account session).holds .exclusive t.number = false := by
        refine Bool.eq_false_iff.2 fun hheld => ?_
        obtain ⟨name, hname⟩ := (hfits.held .exclusive t.number).1 hheld
        have heq := Option.some.inj ((hfits.named _ _ _ hname).symm.trans hknown)
        exact hne (Option.some.inj (hn.symm.trans (heq ▸ hname)))
      rw [takeLocks_cons] at hdone ⊢
      split at hdone
      case isFalse => cases hdone
      rename_i hgranted
      rw [if_pos hgranted]
      have hgains := LockManager.gains_of_granted hcoherent.locks rfl hgranted hnot
      have hserves := LockManager.serves_request hcoherent.locks ⟨session, t.target, .exclusive⟩
      refine ⟨n, lost_finish hserves.sound ?_ fun u hu => List.mem_singleton.1 hu ▸ hne⟩
      dsimp only
      rw [LockManager.account_request hcoherent.locks, if_pos ⟨rfl, hgains⟩]
      exact hfits.lost_gain hn hne

/-- Whether moves are possible one after the other and overwrite no record. -/
def tidyAll : Engine → List Move → Bool
  | _, [] => true
  | e, m :: rest => decide (e.Allows m) && !e.overwrites m && tidyAll (e.after m) rest

theorem Tidy.moves (h : Tidy config disk e) {moves : List Move} (hmoves : e.tidyAll moves = true) :
    Tidy config disk (moves.foldl after e) := by
  induction moves generalizing e with
  | nil => exact h
  | cons m rest ih =>
    rw [tidyAll, Bool.and_eq_true, Bool.and_eq_true, decide_eq_true_iff, Bool.not_eq_true'] at hmoves
    exact ih (.move h hmoves.1.1 hmoves.1.2) hmoves.2

instance (e : Engine) (session : Nat) : Decidable (e.Over session) :=
  inferInstanceAs (Decidable (_ ∧ _))

/-- One session holds a table when another waits to drop it and a third one, in a transaction, to add a
row to it.  The table is dropped, the third session is told so but has the lock of the dropped table,
and a new table of the name is made. -/
def renewed : Engine :=
  [.createDatabase "shop", .connect "shop", .connect "shop", .connect "shop",
    .execute 1 (.createTable "items" (keysOnly "id")),
    .beginTransaction 1, .execute 1 (.insert "items" none [["1"]]),
    .execute 2 (.dropTable "items"),
    .beginTransaction 3, .execute 3 (.insert "items" none [["2"]]),
    .commit 1, .resume ⟨2, ⟨1, "shop.items"⟩, .exclusive⟩,
    .resume ⟨3, ⟨1, "shop.items"⟩, .exclusive⟩,
    .execute 2 (.createTable "items" (keysOnly "id"))].foldl after (.start {} {})

/-- If the third session commits before it uses the new table, it gives back the lock of the dropped
one. -/
theorem not_holds_after_renewal :
    Tidy {} {} (renewed.after (.commit 3)) ∧ (renewed.after (.commit 3)).Over 3 ∧
      ((renewed.after (.commit 3)).locks.lockOf 1).holds .exclusive 3 = false := by
  have htidy : Tidy {} {} (renewed.after (.commit 3)) :=
    .move (Tidy.start.moves (by decide +kernel)) (by decide +kernel) rfl
  have hover : (renewed.after (.commit 3)).Over 3 := by decide +kernel
  exact ⟨htidy, hover, (not_holds_of_over htidy).1 3 hover .exclusive 1⟩

/-- The third session has added a row to the new table and committed. -/
def leaked : Engine :=
  [.execute 3 (.insert "items" none [["3"]]), .commit 3].foldl after renewed

/-- The session has committed and no statement of it waits, but it holds the lock of the dropped table:
the grant of the new table's lock overwrote the record of it. -/
theorem holds_after_commit :
    Reachable {} {} leaked ∧ leaked.Over 3 ∧ (leaked.locks.lockOf 1).holds .exclusive 3 = true := by
  have hrenewed : Reachable {} {} renewed := Reachable.start.moves (by decide +kernel)
  exact ⟨hrenewed.moves (by decide +kernel), by decide +kernel, by decide +kernel⟩

end Engine

end PageDb
