import PageDb.Lock.TableLock

/-!
The lock manager: who holds which lock, and who waits for one.

A request that cannot be granted at once joins the queue for its target and mode and sleeps.  One
signal wakes all sleepers; a sleeper that wakes up tries again if it is the oldest in its queue,
and otherwise sleeps on.  The steps of the manager are atomic: a first request, the retry of a
waiter that is awake, a waiter giving up, and the two kinds of release.

The holders of a lock are kept with the lock, by the number of its target.  What a session holds
is recorded under the names of the targets, and the queues go by name as well.
-/

namespace PageDb

/-- One value for each lock mode. -/
structure ByMode (α : Type) where
  shared : α
  exclusive : α
deriving DecidableEq, Repr

namespace ByMode

variable {α : Type}

/-- The value for a mode. -/
def get (b : ByMode α) : LockMode → α
  | .shared => b.shared
  | .exclusive => b.exclusive

/-- Changes the value for a mode. -/
def modify (b : ByMode α) (mode : LockMode) (f : α → α) : ByMode α :=
  match mode with
  | .shared => { b with shared := f b.shared }
  | .exclusive => { b with exclusive := f b.exclusive }

end ByMode

/-- What a lock guards.  The number is its own for ever; the name may be used again. -/
structure Target where
  number : Nat
  name : String
deriving DecidableEq, Repr

/-- A session asking for a lock. -/
structure Request where
  session : Nat
  target : Target
  mode : LockMode
deriving DecidableEq, Repr

/-- A request that was not granted yet. -/
structure Waiter where
  request : Request
  /-- Whether a signal has come since it last tried. -/
  awake : Bool := false
deriving DecidableEq, Repr

/-- The targets that a session holds, by name. -/
abbrev Holdings := ByMode (SortedMap String Nat)

/-- All locks, and the sessions that hold or want them. -/
structure LockManager where
  locks : SortedMap Nat TableLock := ∅
  /-- The sessions that wait for a target, the oldest first. -/
  queues : ByMode (SortedMap String (List Nat)) := ⟨∅, ∅⟩
  /-- What each session holds. -/
  records : SortedMap Nat Holdings := ∅
  waiters : List Waiter := []
deriving DecidableEq, Repr

namespace LockManager

/-- The lock of a target; free until someone asks for it. -/
def lockOf (m : LockManager) (target : Nat) : TableLock := (m.locks.get? target).getD {}

/-- What a session holds. -/
def holdings (m : LockManager) (session : Nat) : Holdings :=
  (m.records.get? session).getD ⟨∅, ∅⟩

/-- The names of the targets that a session holds in the given way, in ascending order. -/
def targets (m : LockManager) (session : Nat) (mode : LockMode) : List String :=
  ((m.holdings session).get mode).keys

/-- The queue for a target. -/
def queue (m : LockManager) (name : String) (mode : LockMode) : List Nat :=
  ((m.queues.get mode).get? name).getD []

/-- Whether the requesting session is the oldest in its queue. -/
def isOldest (m : LockManager) (r : Request) : Bool :=
  (m.queue r.target.name r.mode).head? == some r.session

/-- Wakes all waiters. -/
def signal (m : LockManager) : LockManager :=
  { m with waiters := m.waiters.map fun w => { w with awake := true } }

/-- Asks the lock itself. -/
def ask (m : LockManager) (r : Request) : LockOutcome × LockManager :=
  let (outcome, lock) := (m.lockOf r.target.number).acquire r.mode r.session
  (outcome, { m with locks := m.locks.insert r.target.number lock })

/-- Records a lock that a session did not hold before in this way. -/
def record (m : LockManager) (r : Request) (outcome : LockOutcome) : LockManager :=
  if outcome = .acquired ∨ outcome = .upgraded then
    let held := m.holdings r.session
    let held : Holdings :=
      match r.mode with
      | .shared => { held with shared := held.shared.insert r.target.name r.target.number }
      | .exclusive =>
        { shared := held.shared.erase r.target.name
          exclusive := held.exclusive.insert r.target.name r.target.number }
    { m with records := m.records.insert r.session held }
  else m

/-- Strikes a lock from the record of a session; a record without locks is dropped. -/
def forget (m : LockManager) (session : Nat) (name : String) (mode : LockMode) : LockManager :=
  match m.records.get? session with
  | none => m
  | some held =>
    let held := held.modify mode fun names => names.erase name
    if held.shared.isEmpty && held.exclusive.isEmpty then
      { m with records := m.records.erase session }
    else { m with records := m.records.insert session held }

/-- Adds the session to the queue for its request. -/
def enqueue (m : LockManager) (r : Request) : LockManager :=
  { m with
    queues := m.queues.modify r.mode fun queues =>
      queues.insert r.target.name (m.queue r.target.name r.mode ++ [r.session]) }

/-- Takes the session out of the queue for its request; an empty queue is dropped. -/
def dequeue (m : LockManager) (r : Request) : LockManager :=
  { m with
    queues := m.queues.modify r.mode fun queues =>
      match queues.get? r.target.name with
      | none => queues
      | some queue =>
        let rest := queue.filter fun session => session ≠ r.session
        if rest.isEmpty then queues.erase r.target.name else queues.insert r.target.name rest }

/-- Takes a session out of every queue. -/
def leaveQueues (m : LockManager) (session : Nat) : LockManager :=
  let strike (queues : SortedMap String (List Nat)) : SortedMap String (List Nat) :=
    let shorter := queues.mapValues fun queue => queue.filter fun s => s ≠ session
    ⟨shorter.toList.filter fun (_, queue) => ¬ queue.isEmpty⟩
  { m with queues := ⟨strike m.queues.shared, strike m.queues.exclusive⟩ }

/-- A first request.  The answer is whether it is granted; if not, the session now waits. -/
def request (m : LockManager) (r : Request) : Bool × LockManager :=
  let (outcome, asked) := m.ask r
  if outcome.isGranted then (true, asked.record r outcome)
  else
    let waiting := asked.enqueue r
    (false, { waiting with waiters := waiting.waiters ++ [{ request := r }] })

/-- The waiters without one for a request. -/
def withdraw (m : LockManager) (r : Request) : LockManager :=
  { m with waiters := m.waiters.eraseP fun w => w.request = r }

/-- Puts the waiters for a request to sleep. -/
def lull (m : LockManager) (r : Request) : LockManager :=
  { m with waiters := m.waiters.map fun w => if w.request = r then { w with awake := false } else w }

/-- A waiter that is awake tries again.  The answer is whether its request is granted now. -/
def retry (m : LockManager) (r : Request) : Bool × LockManager :=
  if m.isOldest r then
    let (outcome, asked) := m.ask r
    if outcome.isGranted then
      (true, (((asked.dequeue r).record r outcome).withdraw r).signal)
    else (false, asked.lull r)
  else (false, m.lull r)

/-- A waiter gives up. -/
def giveUp (m : LockManager) (r : Request) : LockManager :=
  ((m.dequeue r).withdraw r).signal

/-- A session gives a lock back.  The answer is whether it held the lock in that way. -/
def release (m : LockManager) (r : Request) : Bool × LockManager :=
  let (released, lock) := (m.lockOf r.target.number).release r.mode r.session
  let updated := { m with locks := m.locks.insert r.target.number lock }
  let forgotten := updated.forget r.session r.target.name r.mode
  (released, if released then forgotten.signal else forgotten)

/-- Gives targets back in one mode. -/
def releaseEach (session : Nat) (mode : LockMode) : List Nat → LockManager → LockManager
  | [], m => m
  | target :: rest, m =>
    let (_, lock) := (m.lockOf target).release mode session
    releaseEach session mode rest { m with locks := m.locks.insert target lock }

/-- A session gives back all it holds and leaves every queue.  The answer is the targets given
back, those held exclusively first. -/
def releaseAll (m : LockManager) (session : Nat) : List Nat × LockManager :=
  let left := m.leaveQueues session
  match left.records.get? session with
  | none => ([], left)
  | some held =>
    let struck := { left with records := left.records.erase session }
    let freed := releaseEach session .shared held.shared.values
      (releaseEach session .exclusive held.exclusive.values struck)
    (held.exclusive.values ++ held.shared.values, freed.signal)

/-- The oldest waiter that is awake. -/
def nextAwake? (m : LockManager) : Option Request :=
  (m.waiters.find? Waiter.awake).map Waiter.request

/-- Lets up to `fuel` awake waiters try; the answer is the requests granted, in order. -/
def settleFor : (fuel : Nat) → LockManager → List Request × LockManager
  | 0, m => ([], m)
  | fuel + 1, m =>
    match m.nextAwake? with
    | none => ([], m)
    | some r =>
      let (granted, next) := m.retry r
      let (later, last) := settleFor fuel next
      (if granted then r :: later else later, last)

/-- Lets awake waiters try until all that are left sleep.  Between two grants every waiter tries at
most once. -/
def settle (m : LockManager) : List Request × LockManager :=
  settleFor ((m.waiters.length + 1) * (m.waiters.length + 1)) m

/-- A request with a deadline that passes before anyone else moves. -/
def tryRequest (m : LockManager) (r : Request) : Bool × LockManager :=
  let (granted, asked) := m.request r
  if granted then (true, asked) else (false, asked.giveUp r)

end LockManager

end PageDb
