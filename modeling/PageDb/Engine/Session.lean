import PageDb.Engine.Basic

/-!
Sessions and their statements.

A statement finds its tables, takes their locks one after the other, does its work and gives the
locks back.  It may have to wait for a lock; then the session keeps it and takes it up again when
the lock is granted.  In a transaction the locks of writes are kept until the commit, and the pages
they change stay in memory until then.
-/

namespace PageDb

/-- The answer to a statement. -/
inductive Answer where
  | created (table : String)
  | dropped
  | count (n : Nat)
  | rows (headers : List String) (rows : List (List Entry))
deriving DecidableEq

/-- How far a statement got. -/
inductive Progress where
  | done (result : Result Answer)
  | waiting

namespace Table

/-- Adds rows given by literals, one after the other. -/
def insertEach (t : Table) (names : Option (List String)) (pin : Bool) :
    List (List String) → Action Tablespace Unit
  | [] => pure ()
  | literals :: rest => do
    t.insertLiterals names literals pin
    insertEach t names pin rest

end Table

namespace Query

/-- Runs the query to its end. -/
def collect (q : Query) : Action Tablespace (List JointRow) :=
  ExceptT.mk fun space =>
    let (result, (_, space)) := Query.rows.run (q, space)
    (result, space)

end Query

namespace Engine

/-- The session of a number. -/
def session (e : Engine) (number : Nat) : Session :=
  (e.sessions.get? number).getD { database := 0 }

/-- Changes a session. -/
def modifySession (e : Engine) (number : Nat) (f : Session → Session) : Engine :=
  { e with sessions := e.sessions.modify number f }

/-- Connects a new session to a database; the answer is its number. -/
def connect (name : String) : Action Engine Nat := do
  let e ← get
  let database ← e.databaseNumber name
  set
    { e with
      sessions := e.sessions.insert e.nextSession { database := database }
      nextSession := e.nextSession + 1 }
  pure e.nextSession

/-- Begins a transaction. -/
def beginTransaction (e : Engine) (session : Nat) : Engine :=
  e.modifySession session fun s => { s with inTransaction := true }

/-- Ends the transaction and gives back every lock. -/
def commit (e : Engine) (session : Nat) : Engine :=
  (e.releaseAll session).modifySession session fun s => { s with inTransaction := false }

/-- Ends a session and gives back every lock. -/
def disconnect (e : Engine) (session : Nat) : Engine :=
  let e := e.releaseAll session
  { e with sessions := e.sessions.erase session }

/-- The query of a `select` over at least one table.  A single table is not joined. -/
def queryFor (e : Engine) (database : Nat) (names : List String) (on : Option Predicate) :
    Result Query := do
  match ← e.tables database names with
  | [table] => return .ofTable table
  | tables => return .ofJoin tables on

/-- Answers a `select`. -/
def collect (database : Nat) (names : List String) (on : Option Predicate)
    (selectors : List Selector) (filter : Option Predicate) : Action Engine Answer := do
  if names.isEmpty then pure (.rows [] [])
  else
    let query ← (← get).queryFor database names on
    let query := query.withSelection filter
    let projection ← Projection.ofSelectors query.headings selectors
    let rows ← onSpace query.collect
    pure (.rows projection.headers (rows.map projection.apply))

/-- Does the work of a statement whose locks are taken. -/
def perform (session : Session) (statement : Statement) (tables : List Table) :
    Action Engine Answer := do
  let pin := session.inTransaction
  match statement, tables with
  | .dropTable name, _ =>
    dropTable session.database name
    pure .dropped
  | .insert _ columns rows, table :: _ =>
    onSpace (table.insertEach columns pin rows)
    pure (.count rows.length)
  | .delete _ filter, table :: _ => return .count (← onSpace (table.deleteWhere filter pin))
  | .update _ column value filter, table :: _ =>
    return .count (← onSpace (table.updateWhere column value filter pin))
  | .select names on selectors filter, _ => collect session.database names on selectors filter
  | .createTable name schema, _ =>
    return .created (← createTable session.database name schema).qualifiedName
  | _, [] => throw (.tableNotFound "")

/-- Whether a statement gives its locks back as soon as it is done. -/
def releasesLocks (session : Session) : Statement → Bool
  | .insert .. => !session.inTransaction
  | .delete .. => !session.inTransaction
  | .update .. => !session.inTransaction
  | _ => true

/-- Does the work of a statement and gives its locks back. -/
def finish (number : Nat) (running : Running) (e : Engine) : Result Answer × Engine :=
  let session := e.session number
  let (result, e) := (perform session running.statement running.tables).run e
  (result,
    if releasesLocks session running.statement then
      e.releaseEach number running.mode running.tables
    else e)

/-- Takes the locks that a statement still needs.  Either it gets them all and is done, or the
session keeps it and waits. -/
def takeLocks (number : Nat) (running : Running) : List Table → Engine → Progress × Engine
  | [], e =>
    let (result, e) := finish number running e
    (.done result, e)
  | table :: rest, e =>
    let (granted, locks) := e.locks.request ⟨number, table.target, running.mode⟩
    let e := { e with locks := locks }
    if granted then takeLocks number running rest e
    else
      (.waiting,
        e.modifySession number fun s =>
          { s with running := some { running with pending := rest } })

/-- The tables a statement works on, by name, and how it locks them. -/
def lockPlan : Statement → List String × LockMode
  | .createTable _ _ => ([], .exclusive)
  | .dropTable name => ([name], .exclusive)
  | .insert name _ _ => ([name], .exclusive)
  | .delete name _ => ([name], .exclusive)
  | .update name _ _ _ => ([name], .exclusive)
  | .select names _ _ _ => (names, .shared)

/-- Starts a statement. -/
def execute (e : Engine) (number : Nat) (statement : Statement) : Progress × Engine :=
  let (names, mode) := lockPlan statement
  match e.tables (e.session number).database names with
  | .error failure => (.done (.error failure), e)
  | .ok tables =>
    takeLocks number { statement := statement, tables := tables, mode := mode, pending := [] }
      tables e

/-- Lets a session that waits and was woken try again. -/
def resume (e : Engine) (request : Request) : Progress × Engine :=
  let (granted, locks) := e.locks.retry request
  let e := { e with locks := locks }
  match granted, (e.session request.session).running with
  | true, some running =>
    takeLocks request.session running running.pending
      (e.modifySession request.session fun s => { s with running := none })
  | _, _ => (.waiting, e)

/-- Lets up to `fuel` woken sessions try; the answer is the statements that got done, by session. -/
def settleFor : (fuel : Nat) → Engine → List (Nat × Result Answer) × Engine
  | 0, e => ([], e)
  | fuel + 1, e =>
    match e.locks.nextAwake? with
    | none => ([], e)
    | some request =>
      let (progress, next) := e.resume request
      let (later, last) := settleFor fuel next
      match progress with
      | .done result => ((request.session, result) :: later, last)
      | .waiting => (later, last)

/-- The locks that waiting statements still have to get. -/
def locksToTake (e : Engine) : Nat :=
  e.sessions.values.foldr
    (fun s locks => (s.running.map fun r => r.pending.length + 1).getD 0 + locks) 0

/-- Lets woken sessions go on until all that still wait sleep.  Between two grants every waiter
tries at most once. -/
def settle (e : Engine) : List (Nat × Result Answer) × Engine :=
  settleFor ((e.locksToTake + 1) * (e.locks.waiters.length + 1)) e

end Engine

end PageDb
