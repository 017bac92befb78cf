import PageDb.Proofs.Engine.Separation
import PageDb.Proofs.Lock.Serving
import Mathlib.Data.List.Nodup

/-!
Sessions side by side.

`Engine.Move` lists what the sessions of an engine do, and `Engine.Reachable` what moves lead to in
any order.  A session whose statement waits makes no move of its own; its statement goes on when it
is resumed.  `Engine.Coherent` says that a statement that waits holds the locks of the tables before
the one it waits for, and from that follows that a statement that does its work holds them all.
-/

namespace PageDb

namespace Engine

/-- What happens in an engine. -/
inductive Move where
  | createDatabase (name : String)
  | connect (database : String)
  | beginTransaction (session : Nat)
  | commit (session : Nat)
  | disconnect (session : Nat)
  | execute (session : Nat) (statement : Statement)
  /-- A statement that waits for a lock tries again. -/
  | resume (request : Request)

/-- Whether the session is there and no statement of it waits. -/
def ready (e : Engine) (session : Nat) : Bool :=
  (e.sessions.get? session).any fun s => s.running.isNone

/-- Which moves are possible.  A statement that waits may try again whether it was woken or not. -/
def Allows (e : Engine) : Move → Prop
  | .createDatabase _ => True
  | .connect _ => True
  | .beginTransaction session => e.ready session = true
  | .commit session => e.ready session = true
  | .disconnect session => e.ready session = true
  | .execute session _ => e.ready session = true
  | .resume request => request ∈ e.locks.requests

/-- What a move does. -/
def after (e : Engine) : Move → Engine
  | .createDatabase name => e.createDatabase name
  | .connect database => ((connect database).run e).2
  | .beginTransaction session => e.beginTransaction session
  | .commit session => e.commit session
  | .disconnect session => e.disconnect session
  | .execute session statement => (e.execute session statement).2
  | .resume request => (e.resume request).2

/-- What moves lead to, from an engine that was just started. -/
inductive Reachable (config : Config) (disk : Disk) : Engine → Prop where
  | start : Reachable config disk (.start config disk)
  | move {e : Engine} {m : Move} (h : Reachable config disk e) (hm : e.Allows m) :
      Reachable config disk (e.after m)

instance (e : Engine) : (m : Move) → Decidable (e.Allows m)
  | .createDatabase _ => inferInstanceAs (Decidable True)
  | .connect _ => inferInstanceAs (Decidable True)
  | .beginTransaction session => inferInstanceAs (Decidable (e.ready session = true))
  | .commit session => inferInstanceAs (Decidable (e.ready session = true))
  | .disconnect session => inferInstanceAs (Decidable (e.ready session = true))
  | .execute session _ => inferInstanceAs (Decidable (e.ready session = true))
  | .resume request => inferInstanceAs (Decidable (request ∈ e.locks.requests))

/-- Whether moves are possible one after the other. -/
def allowsAll : Engine → List Move → Bool
  | _, [] => true
  | e, m :: rest => decide (e.Allows m) && allowsAll (e.after m) rest

variable {config : Config} {disk : Disk} {e e' : Engine} {session : Nat} {running : Running}
  {pending : List Table} {r : Request}

theorem Reachable.moves (h : Reachable config disk e) {moves : List Move}
    (hmoves : e.allowsAll moves = true) : Reachable config disk (moves.foldl after e) := by
  induction moves generalizing e with
  | nil => exact h
  | cons m rest ih =>
    rw [allowsAll, Bool.and_eq_true, decide_eq_true_iff] at hmoves
    exact ih (.move h hmoves.1) hmoves.2

/-! ## Statements that do their work -/

/-- The engine once a statement has the locks it still needs; none if it has to wait for one. -/
def granted? (session : Nat) (running : Running) : List Table → Engine → Option Engine
  | [], e => some e
  | table :: rest, e =>
    let (granted, locks) := e.locks.request ⟨session, table.target, running.mode⟩
    if granted then granted? session running rest { e with locks := locks } else none

/-- A statement that has its locks, and the engine in which it does its work. -/
structure Work where
  session : Nat
  running : Running
  engine : Engine

/-- The engine after a waiting statement was granted the lock it waited for. -/
def woken (e : Engine) (request : Request) : Engine :=
  { e with locks := (e.locks.retry request).2 }.modifySession request.session
    fun s => { s with running := none }

/-- The work that a move comes to, if it comes to any. -/
def work? (e : Engine) : Move → Option Work
  | .execute session statement =>
    match e.tables (e.session session).database (lockPlan statement).1 with
    | .error _ => none
    | .ok tables =>
      let running : Running :=
        { statement := statement, tables := tables, mode := (lockPlan statement).2, pending := [] }
      (granted? session running tables e).map fun e' => ⟨session, running, e'⟩
  | .resume request =>
    match (e.locks.retry request).1, (e.session request.session).running with
    | true, some running =>
      (granted? request.session running running.pending (e.woken request)).map
        fun e' => ⟨request.session, running, e'⟩
    | _, _ => none
  | _ => none

theorem granted?_cons (session : Nat) (running : Running) (table : Table) (rest : List Table)
    (e : Engine) :
    granted? session running (table :: rest) e =
      if (e.locks.request ⟨session, table.target, running.mode⟩).1 then
        granted? session running rest
          { e with locks := (e.locks.request ⟨session, table.target, running.mode⟩).2 }
      else none := rfl

theorem takeLocks_cons (session : Nat) (running : Running) (table : Table) (rest : List Table)
    (e : Engine) :
    takeLocks session running (table :: rest) e =
      if (e.locks.request ⟨session, table.target, running.mode⟩).1 then
        takeLocks session running rest
          { e with locks := (e.locks.request ⟨session, table.target, running.mode⟩).2 }
      else
        (.waiting,
          { e with locks := (e.locks.request ⟨session, table.target, running.mode⟩).2 }.modifySession
            session fun s => { s with running := some { running with pending := rest } }) := rfl

/-- A statement that gets its locks does its work in the engine that it finds then. -/
theorem takeLocks_of_granted (hgranted : granted? session running pending e = some e') :
    takeLocks session running pending e =
      (.done (finish session running e').1, (finish session running e').2) := by
  induction pending generalizing e with
  | nil =>
    cases hgranted
    rfl
  | cons table rest ih =>
    rw [granted?_cons] at hgranted
    rw [takeLocks_cons]
    split at hgranted
    · rename_i hrequest
      rw [if_pos hrequest]
      exact ih hgranted
    · cases hgranted

/-- A statement that does not get its locks waits. -/
theorem takeLocks_of_refused (hrefused : granted? session running pending e = none) :
    (takeLocks session running pending e).1 = .waiting := by
  induction pending generalizing e with
  | nil => cases hrefused
  | cons table rest ih =>
    rw [granted?_cons] at hrefused
    rw [takeLocks_cons]
    split at hrefused
    · rename_i hrequest
      rw [if_pos hrequest]
      exact ih hrefused
    · rename_i hrequest
      rw [if_neg hrequest]

/-- How far the statement of a move gets. -/
def progress? (e : Engine) : Move → Option Progress
  | .execute session statement => some (e.execute session statement).1
  | .resume request => some (e.resume request).1
  | _ => none

theorem execute_eq (e : Engine) (session : Nat) (statement : Statement) :
    e.execute session statement =
      match e.tables (e.session session).database (lockPlan statement).1 with
      | .error failure => (.done (.error failure), e)
      | .ok tables => takeLocks session
          { statement := statement, tables := tables, mode := (lockPlan statement).2, pending := [] }
          tables e := rfl

theorem resume_eq (e : Engine) (r : Request) :
    e.resume r =
      match (e.locks.retry r).1, (e.session r.session).running with
      | true, some running => takeLocks r.session running running.pending (e.woken r)
      | _, _ => (.waiting, { e with locks := (e.locks.retry r).2 }) := rfl

/-- A move that comes to work does that work and nothing else. -/
theorem after_of_work {m : Move} {w : Work} (hw : e.work? m = some w) :
    e.progress? m = some (.done (finish w.session w.running w.engine).1) ∧
      e.after m = (finish w.session w.running w.engine).2 := by
  cases m with
  | execute session statement =>
    rw [work?] at hw
    rw [progress?, after, execute_eq]
    cases htables : e.tables (e.session session).database (lockPlan statement).1 with
    | error failure => simp [htables] at hw
    | ok tables =>
      simp only [htables] at hw
      obtain ⟨e', hgranted, rfl⟩ := Option.map_eq_some_iff.1 hw
      dsimp only
      rw [takeLocks_of_granted hgranted]
      exact ⟨rfl, rfl⟩
  | resume r =>
    rw [work?] at hw
    rw [progress?, after, resume_eq]
    split at hw
    · obtain ⟨e', hgranted, rfl⟩ := Option.map_eq_some_iff.1 hw
      rw [takeLocks_of_granted hgranted]
      exact ⟨rfl, rfl⟩
    · cases hw
  | _ => cases hw

/-- A statement that is answered has come to its work. -/
theorem exists_work_of_answer {m : Move} {answer : Answer}
    (h : e.progress? m = some (.done (.ok answer))) :
    ∃ w, e.work? m = some w ∧ (finish w.session w.running w.engine).1 = .ok answer := by
  have hdone {w : Work} (hw : e.work? m = some w) :
      (finish w.session w.running w.engine).1 = .ok answer := by
    rw [(after_of_work hw).1] at h
    exact Progress.done.inj (Option.some.inj h)
  cases hwork : e.work? m with
  | some w => exact ⟨w, rfl, hdone hwork⟩
  | none =>
    cases m with
    | execute session statement =>
      rw [progress?, execute_eq] at h
      rw [work?] at hwork
      cases htables : e.tables (e.session session).database (lockPlan statement).1 with
      | error failure => simp [htables] at h
      | ok tables =>
        simp only [htables, Option.map_eq_none_iff] at hwork h
        rw [takeLocks_of_refused hwork] at h
        cases h
    | resume r =>
      rw [progress?, resume_eq] at h
      rw [work?] at hwork
      cases hretry : (e.locks.retry r).1 with
      | false => simp [hretry] at h
      | true =>
        cases hrunning : (e.session r.session).running with
        | none => simp [hretry, hrunning] at h
        | some running =>
          simp only [hretry, hrunning, Option.map_eq_none_iff] at hwork h
          rw [takeLocks_of_refused hwork] at h
          cases h
    | _ => cases h

/-! ## Locks that statements hold on their way -/

/-- Whether a session holds the lock of a table in the given way, or alone. -/
def Guards (e : Engine) (session : Nat) (mode : LockMode) (n : Nat) : Prop :=
  e.locks.Guards session mode n

/-- A statement that has the locks of its tables but for the pending ones. -/
structure Underway (e : Engine) (session : Nat) (running : Running) (pending : List Table) :
    Prop where
  mode : running.mode = (lockPlan running.statement).2
  taken : ∃ taken, running.tables = taken ++ pending ∧
    ∀ t ∈ taken, e.Guards session running.mode t.number

/-- A request is that of a session's statement for the next lock it needs. -/
def Awaits (e : Engine) (r : Request) : Prop :=
  ∃ running table, (e.session r.session).running = some running ∧
    r = ⟨r.session, table.target, running.mode⟩ ∧
    e.Underway r.session running (table :: running.pending)

/-- Every request that waits is that of a statement underway, and no session waits twice. -/
structure Coherent (e : Engine) : Prop where
  locks : e.locks.Sound
  sessions : e.sessions.Ascending fun _ => True
  fresh : ∀ k, e.nextSession ≤ k → e.sessions.get? k = none
  single : (e.locks.requests.map Request.session).Nodup
  awaits : ∀ r ∈ e.locks.requests, e.Awaits r

/-- Whether no request of the session waits. -/
def Idle (e : Engine) (session : Nat) : Prop := ∀ r ∈ e.locks.requests, r.session ≠ session

theorem Underway.mono (h : e.Underway session running pending)
    (hguards : ∀ n, e.Guards session running.mode n → e'.Guards session running.mode n) :
    e'.Underway session running pending := by
  obtain ⟨hmode, taken, htables, htaken⟩ := h
  exact ⟨hmode, taken, htables, fun t ht => hguards t.number (htaken t ht)⟩

/-- What one session does leaves the statements of the others where they are. -/
theorem Awaits.of_serves (h : e.Awaits r) (hne : r.session ≠ session)
    (hserves : LockManager.Serves session e.locks e'.locks)
    (hsession : (e'.session r.session).running = (e.session r.session).running) : e'.Awaits r := by
  obtain ⟨running, table, hrunning, hr, hway⟩ := h
  exact ⟨running, table, hsession.trans hrunning, hr, hway.mono fun _ => hserves.guards hne⟩

theorem session_modifySession (e : Engine) (number k : Nat) (f : Session → Session)
    (hne : k ≠ number) : (e.modifySession number f).session k = e.session k := by
  rw [Engine.session, modifySession, SortedMap.get?_modify_eq, if_neg hne]
  rfl

theorem session_modifySession_self (e : Engine) {number : Nat} {s : Session} (f : Session → Session)
    (hs : e.sessions.get? number = some s) : (e.modifySession number f).session number = f s := by
  rw [Engine.session, modifySession, SortedMap.get?_modify_eq, if_pos rfl, hs]
  rfl

theorem Awaits.exists_session (h : e.Awaits r) : ∃ s, e.sessions.get? r.session = some s := by
  obtain ⟨running, table, hrunning, -, -⟩ := h
  rw [Engine.session] at hrunning
  cases hs : e.sessions.get? r.session with
  | some s => exact ⟨s, rfl⟩
  | none =>
    rw [hs] at hrunning
    cases hrunning

theorem Coherent.idle_of_ready (h : e.Coherent) (hready : e.ready session = true) :
    e.Idle session := by
  intro r hr heq
  obtain ⟨running, table, hrunning, -, -⟩ := h.awaits r hr
  rw [heq, Engine.session] at hrunning
  rw [ready] at hready
  cases hs : e.sessions.get? session with
  | none => simp [hs] at hready
  | some s =>
    rw [hs, Option.getD_some] at hrunning
    simp [hs, hrunning] at hready

/-! ## The work of a statement -/

/-- Nothing has changed for locks and sessions. -/
structure SameClients (e e' : Engine) : Prop where
  locks : e'.locks = e.locks
  sessions : e'.sessions = e.sessions
  next : e'.nextSession = e.nextSession

theorem SameClients.refl (e : Engine) : e.SameClients e := ⟨rfl, rfl, rfl⟩

/-- Whether a statement makes a table or drops one. -/
def altersCatalog : Statement → Bool
  | .createTable .. => true
  | .dropTable _ => true
  | _ => false

/-- A statement that neither makes nor drops a table works on the stores only. -/
theorem perform_eq_withSpace {statement : Statement} (hstatement : altersCatalog statement = false)
    (e : Engine) (session : Session) (tables : List Table) :
    ∃ space, ((perform session statement tables).run e).2 = { e with space := space } := by
  have hspace {α : Type} (action : Action Tablespace α) :
      (onSpace action).Keeps (fun e' => ∃ space, e' = { e with space := space }) fun _ => True := by
    rintro _ ⟨space, rfl⟩
    exact ⟨⟨_, rfl⟩, fun _ _ => trivial⟩
  have hkeeps {action : Action Engine Answer}
      (h : action.Keeps (fun e' => ∃ space, e' = { e with space := space }) fun _ => True) :
      ∃ space, (action.run e).2 = { e with space := space } := (h e ⟨e.space, rfl⟩).1
  cases statement with
  | createTable => cases hstatement
  | dropTable => cases hstatement
  | select names on selectors filter =>
    show ∃ space, ((collect session.database names on selectors filter).run e).2 = _
    cases hnames : names.isEmpty with
    | true =>
      simp only [collect, hnames, if_true]
      exact ⟨e.space, rfl⟩
    | false =>
      rw [run_collect hnames]
      cases e.plan session.database names on selectors filter with
      | error failure => exact ⟨e.space, rfl⟩
      | ok found => exact ⟨_, rfl⟩
  | insert name columns rows =>
    apply hkeeps
    cases tables with
    | nil => exact .throw _
    | cons t rest => exact .bind (hspace _) fun _ _ => .pure trivial
  | delete name filter =>
    apply hkeeps
    cases tables with
    | nil => exact .throw _
    | cons t rest => exact .bind (hspace _) fun _ _ => .pure trivial
  | update name column value filter =>
    apply hkeeps
    cases tables with
    | nil => exact .throw _
    | cons t rest => exact .bind (hspace _) fun _ _ => .pure trivial

/-- The work of a statement leaves locks and sessions alone. -/
theorem sameClients_perform (e : Engine) (session : Session) (statement : Statement)
    (tables : List Table) :
    e.SameClients ((perform session statement tables).run e).2 := by
  have hrest (hstatement : altersCatalog statement = false) :
      e.SameClients ((perform session statement tables).run e).2 := by
    obtain ⟨space, hspace⟩ := perform_eq_withSpace hstatement e session tables
    rw [hspace]
    exact ⟨rfl, rfl, rfl⟩
  cases statement with
  | createTable name schema =>
    simp only [perform, Action.run_bind_pure, run_createTable]
    split
    · exact .refl e
    · exact ⟨rfl, rfl, rfl⟩
  | dropTable name =>
    simp only [perform, Action.run_bind_pure, run_dropTable]
    cases e.table session.database name with
    | error failure => exact .refl e
    | ok table => exact ⟨rfl, rfl, rfl⟩
  | _ => exact hrest rfl

/-! ## Every move keeps it coherent -/

theorem coherent_start (config : Config) (disk : Disk) : (Engine.start config disk).Coherent where
  locks := LockManager.sound_empty
  sessions := SortedMap.ascending_empty
  fresh _ _ := rfl
  single := .nil
  awaits _ h := by cases h

/-- One session calls the lock manager, nothing begins to wait, and the sessions whose statements
wait are as they were. -/
theorem Coherent.of_serves (h : e.Coherent) (hidle : e.Idle session)
    (hserves : LockManager.Serves session e.locks e'.locks)
    (hrequests : e'.locks.requests = e.locks.requests)
    (hascending : e'.sessions.Ascending fun _ => True)
    (hfresh : ∀ k, e'.nextSession ≤ k → e'.sessions.get? k = none)
    (hsessions : ∀ r ∈ e.locks.requests,
      (e'.session r.session).running = (e.session r.session).running) : e'.Coherent where
  locks := hserves.sound
  sessions := hascending
  fresh := hfresh
  single := hrequests ▸ h.single
  awaits r hr := by
    rw [hrequests] at hr
    exact (h.awaits r hr).of_serves (hidle r hr) hserves (hsessions r hr)

theorem Coherent.of_sameClients (h : e.Coherent) (hsame : e.SameClients e') : e'.Coherent := by
  obtain ⟨hlocks, hsessions, hnext⟩ := hsame
  refine ⟨hlocks ▸ h.locks, hsessions ▸ h.sessions, ?_, hlocks ▸ h.single, fun r hr => ?_⟩
  · rw [hsessions, hnext]
    exact h.fresh
  · rw [hlocks] at hr
    obtain ⟨running, table, hrunning, hrequest, hway⟩ := h.awaits r hr
    refine ⟨running, table, ?_, hrequest, hway.mono fun n hn => ?_⟩
    · rwa [Engine.session, hsessions]
    · rwa [Guards, hlocks]

theorem fresh_modify (h : e.Coherent) (number : Nat) (f : Session → Session) (k : Nat)
    (hk : e.nextSession ≤ k) : (e.sessions.modify number f).get? k = none := by
  rw [SortedMap.get?_modify_eq, h.fresh k hk]
  split <;> rfl

/-- Giving back locks keeps the engine coherent. -/
theorem Coherent.releaseEach (h : e.Coherent) (hidle : e.Idle session) (mode : LockMode)
    (tables : List Table) :
    (e.releaseEach session mode tables).Coherent := by
  induction tables generalizing e with
  | nil => exact h
  | cons table rest ih =>
    have hserves := LockManager.serves_release h.locks ⟨session, table.target, mode⟩
    have hrequests := LockManager.requests_release e.locks ⟨session, table.target, mode⟩
    have hlocks : (e.release session table mode).2.locks =
        (e.locks.release ⟨session, table.target, mode⟩).2 := by
      simp only [release]
      split <;> rfl
    have hclients : (e.release session table mode).2.sessions = e.sessions ∧
        (e.release session table mode).2.nextSession = e.nextSession := by
      simp only [release]
      split <;> exact ⟨rfl, rfl⟩
    have hidle' : (e.release session table mode).2.Idle session := by
      intro r hr
      rw [hlocks, hrequests] at hr
      exact hidle r hr
    refine ih (h.of_serves hidle (hlocks ▸ hserves) (hlocks ▸ hrequests) ?_ ?_ ?_) hidle'
    · exact hclients.1 ▸ h.sessions
    · rw [hclients.1, hclients.2]
      exact h.fresh
    · intro r _
      rw [Engine.session, hclients.1]
      rfl

theorem Coherent.finish (h : e.Coherent) (hidle : e.Idle session) (running : Running) :
    (finish session running e).2.Coherent := by
  have hsame := sameClients_perform e (e.session session) running.statement running.tables
  have hidle' : ((perform (e.session session) running.statement running.tables).run e).2.Idle
      session := by
    intro r hr
    rw [hsame.locks] at hr
    exact hidle r hr
  show Engine.Coherent (if _ then _ else _)
  split
  · exact (h.of_sameClients hsame).releaseEach hidle' _ _
  · exact h.of_sameClients hsame

/-- A statement that asks for its next lock is refused, and its session waits. -/
theorem Coherent.wait (h : e.Coherent) (hidle : e.Idle session) {s : Session}
    (hs : e.sessions.get? session = some s) {table : Table} {rest : List Table}
    (hway : e.Underway session running (table :: rest))
    (hrefused : (e.locks.request ⟨session, table.target, running.mode⟩).1 = false) :
    ({ e with locks := (e.locks.request ⟨session, table.target, running.mode⟩).2 }.modifySession
      session fun s => { s with running := some { running with pending := rest } }).Coherent := by
  have hserves := LockManager.serves_request h.locks ⟨session, table.target, running.mode⟩
  have hrequests := LockManager.requests_request e.locks ⟨session, table.target, running.mode⟩
  rw [hrefused] at hrequests
  refine ⟨hserves.sound, h.sessions.modify _ _, fresh_modify h session _, ?_, ?_⟩
  · show ((e.locks.request _).2.requests.map Request.session).Nodup
    rw [hrequests]
    simp only [Bool.false_eq_true, if_false, List.map_append, List.map_cons, List.map_nil]
    -- an idle session has no other request in line
    refine List.nodup_append.2 ⟨h.single, List.nodup_singleton _, ?_⟩
    rintro k hk _ hlast rfl
    obtain ⟨r, hr, heq⟩ := List.mem_map.1 hk
    exact hidle r hr (heq.trans (List.mem_singleton.1 hlast))
  · intro r hr
    have hr' : r ∈ (e.locks.request ⟨session, table.target, running.mode⟩).2.requests := hr
    rw [hrequests] at hr'
    rcases List.mem_append.1 hr' with hr' | hr'
    · refine (h.awaits r hr').of_serves (hidle r hr') hserves ?_
      rw [session_modifySession _ _ _ _ (hidle r hr')]
      rfl
    · obtain rfl := List.mem_singleton.1 hr'
      refine ⟨{ running with pending := rest }, table, ?_, rfl, ?_⟩
      · exact congrArg Session.running (session_modifySession_self { e with locks := _ } _ hs)
      · obtain ⟨hmode, taken, htables, htaken⟩ := hway
        refine ⟨hmode, taken, htables, fun t ht => ?_⟩
        exact LockManager.guards_request_of_guards h.locks _ (htaken t ht)

/-- Taking locks keeps the engine coherent, whether the statement gets them all or has to wait. -/
theorem Coherent.takeLocks (h : e.Coherent) (hidle : e.Idle session) {s : Session}
    (hs : e.sessions.get? session = some s) (hway : e.Underway session running pending) :
    (takeLocks session running pending e).2.Coherent ∧
      ∀ e', granted? session running pending e = some e' → e'.Underway session running [] := by
  -- on the locks still to be taken; the session keeps those it has
  induction pending generalizing e with
  | nil =>
    refine ⟨h.finish hidle running, ?_⟩
    rintro _ ⟨⟩
    exact hway
  | cons table rest ih =>
    have hserves := LockManager.serves_request h.locks ⟨session, table.target, running.mode⟩
    have hrequests := LockManager.requests_request e.locks ⟨session, table.target, running.mode⟩
    rw [takeLocks_cons, granted?_cons]
    cases hgranted : (e.locks.request ⟨session, table.target, running.mode⟩).1 with
    | false => exact ⟨h.wait hidle hs hway hgranted, by simp⟩
    | true =>
      rw [hgranted] at hrequests
      have hguards := LockManager.guards_request h.locks hgranted
      refine ih (h.of_serves hidle hserves hrequests h.sessions h.fresh fun _ _ => rfl) ?_ hs ?_
      · intro r hr
        have hr' : r ∈ (e.locks.request ⟨session, table.target, running.mode⟩).2.requests := hr
        rw [hrequests] at hr'
        exact hidle r hr'
      · obtain ⟨hmode, taken, htables, htaken⟩ := hway
        refine ⟨hmode, taken ++ [table], by simp [htables], fun t ht => ?_⟩
        rcases List.mem_append.1 ht with ht | ht
        · exact LockManager.guards_request_of_guards h.locks _ (htaken t ht)
        · exact List.mem_singleton.1 ht ▸ hguards

theorem exists_of_ready (hready : e.ready session = true) :
    ∃ s, e.sessions.get? session = some s := by
  rw [ready, Option.any_eq_true] at hready
  obtain ⟨s, hs, -⟩ := hready
  exact ⟨s, hs⟩

theorem Coherent.execute (h : e.Coherent) (hready : e.ready session = true)
    (statement : Statement) : (e.execute session statement).2.Coherent := by
  obtain ⟨s, hs⟩ := exists_of_ready hready
  rw [Engine.execute]
  dsimp only
  cases e.tables (e.session session).database (lockPlan statement).1 with
  | error failure => exact h
  | ok tables => exact (h.takeLocks (h.idle_of_ready hready) hs ⟨rfl, [], rfl, by simp⟩).1

/-- A waiting statement that is granted its lock is underway to the next one. -/
theorem Coherent.woken (h : e.Coherent) (hr : r ∈ e.locks.requests)
    (hgranted : (e.locks.retry r).1 = true) :
    (e.woken r).Coherent ∧ (e.woken r).Idle r.session ∧
      (∃ s, (e.woken r).sessions.get? r.session = some s) ∧
      ∀ running, (e.session r.session).running = some running →
        (e.woken r).Underway r.session running running.pending := by
  have hserves := LockManager.serves_retry h.locks r
  have hrequests := LockManager.requests_retry e.locks r
  rw [hgranted, if_pos rfl] at hrequests
  have hwokenRequests : (e.woken r).locks.requests = e.locks.requests.erase r := hrequests
  -- the session waited with this request only
  have hothers : ∀ w ∈ e.locks.requests.erase r, w ∈ e.locks.requests ∧ w.session ≠ r.session := by
    intro w hw
    have hin := List.mem_of_mem_erase hw
    refine ⟨hin, fun heq => ?_⟩
    have hwr : w = r := List.inj_on_of_nodup_map h.single hin hr heq
    rw [hwr, List.Nodup.mem_erase_iff (List.Nodup.of_map _ h.single)] at hw
    exact hw.1 rfl
  refine ⟨⟨hserves.sound, h.sessions.modify _ _, fresh_modify h r.session _, ?_, ?_⟩, ?_, ?_, ?_⟩
  · rw [hwokenRequests]
    exact h.single.sublist (List.erase_sublist.map _)
  · intro w hw
    rw [hwokenRequests] at hw
    obtain ⟨hin, hne⟩ := hothers w hw
    refine (h.awaits w hin).of_serves hne hserves ?_
    exact congrArg Session.running (session_modifySession { e with locks := _ } _ _ _ hne)
  · intro w hw
    rw [hwokenRequests] at hw
    exact (hothers w hw).2
  · obtain ⟨s, hs⟩ := (h.awaits r hr).exists_session
    refine ⟨{ s with running := none }, ?_⟩
    rw [Engine.woken, modifySession, SortedMap.get?_modify_eq, if_pos rfl, hs]
    rfl
  · intro running hrunning
    obtain ⟨running', table, hrunning', hrequest, hmode, taken, htables, htaken⟩ := h.awaits r hr
    obtain rfl : running' = running := Option.some.inj (hrunning'.symm.trans hrunning)
    have hrmode : r.mode = running'.mode := congrArg Request.mode hrequest
    have hrtarget : r.target = table.target := congrArg Request.target hrequest
    refine ⟨hmode, taken ++ [table], by simp [htables], fun t ht => ?_⟩
    rcases List.mem_append.1 ht with ht | ht
    · exact hrmode ▸ LockManager.guards_retry_of_guards h.locks r (hrmode ▸ htaken t ht)
    · have hguards := LockManager.guards_retry h.locks hgranted
      rw [hrmode, hrtarget] at hguards
      exact List.mem_singleton.1 ht ▸ hguards

/-- A waiting statement that is refused again waits on. -/
theorem Coherent.refused (h : e.Coherent) (hr : r ∈ e.locks.requests)
    (hrefused : (e.locks.retry r).1 = false) :
    ({ e with locks := (e.locks.retry r).2 } : Engine).Coherent := by
  have hserves := LockManager.serves_retry h.locks r
  have hrequests := LockManager.requests_retry e.locks r
  rw [hrefused] at hrequests
  have hsame : (e.locks.retry r).2.requests = e.locks.requests := hrequests
  refine ⟨hserves.sound, h.sessions, h.fresh, ?_, fun w hw => ?_⟩
  · rw [hsame]
    exact h.single
  · have hw' : w ∈ (e.locks.retry r).2.requests := hw
    rw [hsame] at hw'
    by_cases hne : w.session = r.session
    · obtain rfl : w = r := List.inj_on_of_nodup_map h.single hw' hr hne
      obtain ⟨running, table, hrunning, hrequest, hway⟩ := h.awaits w hw'
      have hmode : w.mode = running.mode := congrArg Request.mode hrequest
      refine ⟨running, table, hrunning, hrequest, hway.mono fun n hn => ?_⟩
      exact hmode ▸ LockManager.guards_retry_of_guards h.locks w (hmode ▸ hn)
    · exact (h.awaits w hw').of_serves hne hserves rfl

theorem Coherent.resume (h : e.Coherent) (hr : r ∈ e.locks.requests) :
    (e.resume r).2.Coherent := by
  rw [resume_eq]
  cases hgranted : (e.locks.retry r).1 with
  | false => exact h.refused hr hgranted
  | true =>
    obtain ⟨running, table, hrunning, -, -⟩ := h.awaits r hr
    obtain ⟨hwoken, hidle, ⟨s, hs⟩, hway⟩ := h.woken hr hgranted
    rw [hrunning]
    exact (hwoken.takeLocks hidle hs (hway running hrunning)).1

/-- A session that gives back all its locks leaves the statements of the others where they are. -/
theorem Coherent.releaseAll (h : e.Coherent) (hidle : e.Idle session) :
    (e.releaseAll session).Coherent :=
  h.of_serves hidle (LockManager.serves_releaseAll h.locks session)
    (LockManager.requests_releaseAll e.locks session) h.sessions h.fresh fun _ _ => rfl

theorem Coherent.modifySession (h : e.Coherent) (hidle : e.Idle session) (f : Session → Session) :
    (e.modifySession session f).Coherent := by
  refine h.of_serves hidle (.refl h.locks) rfl (h.sessions.modify _ _) (fresh_modify h session f) ?_
  intro r hr
  rw [session_modifySession _ _ _ _ (hidle r hr)]

theorem Coherent.disconnect (h : e.Coherent) (hidle : e.Idle session) :
    (e.disconnect session).Coherent := by
  have hreleased := h.releaseAll hidle
  have hrequests : (e.releaseAll session).locks.requests = e.locks.requests :=
    LockManager.requests_releaseAll e.locks session
  have hget (k : Nat) : (e.disconnect session).sessions.get? k =
      if k = session then none else (e.releaseAll session).sessions.get? k :=
    SortedMap.get?_erase_eq hreleased.sessions session k
  have hidle' : (e.releaseAll session).Idle session := by
    intro r hr
    rw [hrequests] at hr
    exact hidle r hr
  refine hreleased.of_serves hidle' (.refl hreleased.locks) rfl (hreleased.sessions.erase session) ?_ ?_
  · intro k hk
    rw [hget, hreleased.fresh k hk]
    split <;> rfl
  · intro r hr
    rw [hrequests] at hr
    rw [Engine.session, hget, if_neg (hidle r hr)]
    rfl

theorem run_connect (e : Engine) (name : String) :
    (connect name).run e =
      match e.databaseNumber name with
      | .error failure => (.error failure, e)
      | .ok database => (.ok e.nextSession,
          { e with
            sessions := e.sessions.insert e.nextSession { database := database }
            nextSession := e.nextSession + 1 }) := by
  rw [connect, Action.run_bind_ok (Action.run_get e)]
  cases e.databaseNumber name <;> rfl

theorem Coherent.connect (h : e.Coherent) (name : String) :
    ((connect name).run e).2.Coherent := by
  rw [run_connect]
  cases e.databaseNumber name with
  | error failure => exact h
  | ok database =>
    have hget (k : Nat) : (e.sessions.insert e.nextSession { database := database }).get? k =
        if k = e.nextSession then some { database := database } else e.sessions.get? k :=
      SortedMap.get?_insert_eq h.sessions _ _ _
    -- the number of the new session is one that no request can have
    have hidle : e.Idle e.nextSession := by
      intro r hr heq
      obtain ⟨s, hs⟩ := (h.awaits r hr).exists_session
      rw [heq, h.fresh e.nextSession (Nat.le_refl _)] at hs
      cases hs
    refine h.of_serves hidle (.refl h.locks) rfl
      (h.sessions.insert SortedMap.orderedOn_all trivial _) ?_ ?_
    · intro k hk
      have hk' : e.nextSession + 1 ≤ k := hk
      rw [hget, if_neg (by omega), h.fresh k (by omega)]
    · intro r hr
      rw [Engine.session, hget, if_neg (hidle r hr)]
      rfl

theorem Coherent.createDatabase (h : e.Coherent) (name : String) :
    (e.createDatabase name).Coherent := by
  rw [Engine.createDatabase]
  split
  · exact h
  · exact h.of_sameClients ⟨rfl, rfl, rfl⟩

theorem Coherent.after (h : e.Coherent) {m : Move} (hm : e.Allows m) : (e.after m).Coherent := by
  cases m with
  | createDatabase name => exact h.createDatabase name
  | connect database => exact h.connect database
  | beginTransaction session => exact h.modifySession (h.idle_of_ready hm) _
  | commit session =>
    have hidle := h.idle_of_ready hm
    refine (h.releaseAll hidle).modifySession (fun r hr => hidle r ?_) _
    rwa [show (e.releaseAll session).locks.requests = e.locks.requests from
      LockManager.requests_releaseAll e.locks session] at hr
  | disconnect session => exact h.disconnect (h.idle_of_ready hm)
  | execute session statement => exact h.execute hm statement
  | resume r => exact h.resume hm

theorem Reachable.coherent (h : Reachable config disk e) : e.Coherent := by
  induction h with
  | start => exact coherent_start config disk
  | move _ hm ih => exact ih.after hm

/-- A statement that does its work holds the locks of all its tables. -/
theorem Coherent.underway_of_work (h : e.Coherent) {m : Move} (hm : e.Allows m) {w : Work}
    (hw : e.work? m = some w) : w.engine.Underway w.session w.running [] := by
  cases m with
  | execute session statement =>
    obtain ⟨s, hs⟩ := exists_of_ready hm
    rw [work?] at hw
    split at hw
    · cases hw
    · obtain ⟨e', hgranted, rfl⟩ := Option.map_eq_some_iff.1 hw
      exact (h.takeLocks (h.idle_of_ready hm) hs ⟨rfl, [], rfl, by simp⟩).2 e' hgranted
  | resume r =>
    rw [work?] at hw
    split at hw
    · rename_i running hgranted hrunning
      obtain ⟨hwoken, hidle, ⟨s, hs⟩, hway⟩ := h.woken hm hgranted
      obtain ⟨e', hlater, rfl⟩ := Option.map_eq_some_iff.1 hw
      exact (hwoken.takeLocks hidle hs (hway running hrunning)).2 e' hlater
    · cases hw
  | _ => cases hw

end Engine

end PageDb
