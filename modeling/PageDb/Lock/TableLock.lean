import PageDb.SortedMap

/-!
The lock of one table: shared by any number of sessions, or held exclusively by one.
-/

namespace PageDb

/-- The two ways to hold a lock. -/
inductive LockMode where
  | shared
  | exclusive
deriving DecidableEq, Repr

/-- How a lock is held at the moment. -/
inductive LockState where
  | free
  | shared
  | exclusive
deriving DecidableEq, Repr

/-- The answer to a request. -/
inductive LockOutcome where
  | acquired
  /-- A sole shared holder became the exclusive one. -/
  | upgraded
  | alreadyHeld
  | wouldBlock
deriving DecidableEq, Repr

/-- Every answer but one lets the session go on. -/
def LockOutcome.isGranted : LockOutcome → Bool
  | .wouldBlock => false
  | _ => true

/-- A lock and its holders, in ascending order. -/
structure TableLock where
  state : LockState := .free
  sharedHolders : List Nat := []
  exclusiveHolders : List Nat := []
deriving DecidableEq, Repr

namespace TableLock

instance : Inhabited TableLock := ⟨{}⟩

/-- Puts a session into an ascending list that does not have it. -/
def insertHolder (session : Nat) : List Nat → List Nat
  | [] => [session]
  | s :: rest => if session < s then session :: s :: rest else s :: insertHolder session rest

/-- Asks to share the lock. -/
def acquireShared (l : TableLock) (session : Nat) : LockOutcome × TableLock :=
  match l.state with
  | .exclusive => (if session ∈ l.exclusiveHolders then .alreadyHeld else .wouldBlock, l)
  | _ =>
    if session ∈ l.sharedHolders then (.alreadyHeld, { l with state := .shared })
    else
      (.acquired,
        { l with state := .shared, sharedHolders := insertHolder session l.sharedHolders })

/-- Asks to hold the lock alone. -/
def acquireExclusive (l : TableLock) (session : Nat) : LockOutcome × TableLock :=
  match l.state with
  | .exclusive => (if session ∈ l.exclusiveHolders then .alreadyHeld else .wouldBlock, l)
  | .shared =>
    if l.sharedHolders = [session] then
      (.upgraded,
        { state := .exclusive
          sharedHolders := []
          exclusiveHolders := insertHolder session l.exclusiveHolders })
    else (.wouldBlock, l)
  | .free =>
    (.acquired,
      { l with
        state := .exclusive, exclusiveHolders := insertHolder session l.exclusiveHolders })

/-- Asks for the lock. -/
def acquire (l : TableLock) (mode : LockMode) (session : Nat) : LockOutcome × TableLock :=
  match mode with
  | .shared => l.acquireShared session
  | .exclusive => l.acquireExclusive session

/-- Stops sharing the lock; the answer is whether the session did share it. -/
def releaseShared (l : TableLock) (session : Nat) : Bool × TableLock :=
  if session ∈ l.sharedHolders then
    let rest := l.sharedHolders.erase session
    (true,
      { l with
        sharedHolders := rest
        state := if rest = [] ∧ l.state = .shared then .free else l.state })
  else (false, l)

/-- Gives up the exclusive lock; the answer is whether the session held it. -/
def releaseExclusive (l : TableLock) (session : Nat) : Bool × TableLock :=
  if session ∈ l.exclusiveHolders then
    (true, { l with exclusiveHolders := l.exclusiveHolders.erase session, state := .free })
  else (false, l)

/-- Gives the lock back; the answer is whether the session held it in that way. -/
def release (l : TableLock) (mode : LockMode) (session : Nat) : Bool × TableLock :=
  match mode with
  | .shared => l.releaseShared session
  | .exclusive => l.releaseExclusive session

/-- Whether the session holds the lock in the given way. -/
def holds (l : TableLock) (mode : LockMode) (session : Nat) : Bool :=
  match mode with
  | .shared => decide (session ∈ l.sharedHolders)
  | .exclusive => decide (session ∈ l.exclusiveHolders)

/-- The session that holds the lock alone. -/
def exclusiveHolder? (l : TableLock) : Option Nat := l.exclusiveHolders.head?

end TableLock

end PageDb
