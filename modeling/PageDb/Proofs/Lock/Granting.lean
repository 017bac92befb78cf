import PageDb.Proofs.Lock.TableLock

/-!
Which requests for the lock of a table are granted.

`TableLock.Valid` lists the forms a lock can have, and every call leads from one of them to another.  So
the stored state says the same as the holders, and a request is granted exactly if no other session
holds the lock in a way that conflicts with it.
-/

namespace PageDb

/-- A call on the lock of a table. -/
inductive LockCall where
  | acquire (mode : LockMode) (session : Nat)
  | release (mode : LockMode) (session : Nat)
deriving DecidableEq, Repr

namespace TableLock

variable {l : TableLock} {session : Nat}

/-- The lock after a call. -/
def after (l : TableLock) : LockCall → TableLock
  | .acquire mode session => (l.acquire mode session).2
  | .release mode session => (l.release mode session).2

theorem Valid.after (h : l.Valid) (c : LockCall) : (l.after c).Valid := by
  cases c with
  | acquire mode session => exact h.acquire mode session
  | release mode session => exact h.release mode session

/-- Calls lead from a new lock to valid locks only. -/
theorem valid_foldl_after (calls : List LockCall) (h : l.Valid) : (calls.foldl after l).Valid := by
  induction calls generalizing l with
  | nil => exact h
  | cons c rest ih => exact ih (h.after c)

/-! ## The state and the holders -/

theorem Valid.state_eq_exclusive_iff (h : l.Valid) :
    l.state = .exclusive ↔ l.exclusiveHolders.length = 1 ∧ l.sharedHolders = [] := by
  cases h <;> simp

theorem Valid.state_eq_shared_iff (h : l.Valid) :
    l.state = .shared ↔ l.sharedHolders ≠ [] ∧ l.exclusiveHolders = [] := by
  cases h with
  | shared hne hnodup => simp [hne]
  | free => simp
  | exclusive session => simp

theorem Valid.state_eq_free_iff (h : l.Valid) :
    l.state = .free ↔ l.sharedHolders = [] ∧ l.exclusiveHolders = [] := by
  cases h with
  | shared hne hnodup => simp [hne]
  | free => simp
  | exclusive session => simp

/-! ## Requests -/

/-- Only a session that holds the lock alone keeps others from sharing it. -/
theorem Valid.isGranted_shared_iff (h : l.Valid) :
    (l.acquire .shared session).1.isGranted = true ↔
      ∀ other, l.holds .exclusive other = true → other = session := by
  cases h with
  | free => simp [TableLock.acquire, acquireShared, holds, LockOutcome.isGranted]
  | @shared sessions hne hnodup =>
    by_cases hin : session ∈ sessions <;>
      simp [TableLock.acquire, acquireShared, holds, LockOutcome.isGranted, hin]
  | exclusive owner =>
    by_cases howner : session = owner
    · simp [TableLock.acquire, acquireShared, holds, LockOutcome.isGranted, howner]
    · simp [TableLock.acquire, acquireShared, holds, LockOutcome.isGranted, howner, Ne.symm howner]

/-- A list without repetitions whose members are all the same has one member at most. -/
theorem eq_singleton_iff_of_nodup {sessions : List Nat} (hne : sessions ≠ [])
    (hnodup : sessions.Nodup) : sessions = [session] ↔ ∀ other ∈ sessions, other = session := by
  constructor
  · rintro rfl
    simp
  · intro hsame
    have hreplicate := List.eq_replicate_of_mem hsame
    have hlength : sessions.length ≤ 1 := by
      rw [hreplicate] at hnodup
      exact List.nodup_replicate.1 hnodup
    have hpos := List.length_pos_iff.2 hne
    rw [hreplicate, show sessions.length = 1 by omega]
    rfl

/-- Every other session that holds the lock keeps a session from holding it alone. -/
theorem Valid.isGranted_exclusive_iff (h : l.Valid) :
    (l.acquire .exclusive session).1.isGranted = true ↔
      ∀ mode other, l.holds mode other = true → other = session := by
  cases h with
  | free =>
    have hnone (mode : LockMode) (other : Nat) : ({} : TableLock).holds mode other = false := by
      cases mode <;> rfl
    simp [TableLock.acquire, acquireExclusive, LockOutcome.isGranted, hnone]
  | @shared sessions hne hnodup =>
    have hheld : (∀ mode other, TableLock.holds
          { state := .shared, sharedHolders := sessions } mode other = true → other = session) ↔
        sessions = [session] := by
      rw [eq_singleton_iff_of_nodup hne hnodup]
      constructor
      · intro hall other hother
        exact hall .shared other (by simpa [holds] using hother)
      · rintro hall (_ | _) other hother
        · exact hall other (by simpa [holds] using hother)
        · simp [holds] at hother
    rw [hheld]
    by_cases hsole : sessions = [session] <;>
      simp [TableLock.acquire, acquireExclusive, LockOutcome.isGranted, hsole]
  | exclusive owner =>
    have hheld : (∀ mode other, TableLock.holds
          { state := .exclusive, exclusiveHolders := [owner] } mode other = true →
            other = session) ↔ owner = session := by
      constructor
      · intro hall
        exact hall .exclusive owner (by simp [holds])
      · rintro rfl (_ | _) other hother
        · simp [holds] at hother
        · simpa [holds] using hother
    rw [hheld]
    by_cases howner : session = owner
    · simp [TableLock.acquire, acquireExclusive, LockOutcome.isGranted, howner]
    · simp [TableLock.acquire, acquireExclusive, LockOutcome.isGranted, howner, Ne.symm howner]

/-- After any calls on a new lock, by any sessions, the state says how the lock is held: alone, by one
session and shared by none; shared, by at least one session; or not at all.  A request to share it is
granted if and only if no other session holds it alone, and a request to hold it alone if and only if
no other session holds it.  What is not newly granted, and what is not given back, changes nothing. -/
theorem grants_compatible_requests (calls : List LockCall) :
    let l := calls.foldl after {}
    ((l.state = .exclusive ↔ l.exclusiveHolders.length = 1 ∧ l.sharedHolders = []) ∧
      (l.state = .shared ↔ l.sharedHolders ≠ [] ∧ l.exclusiveHolders = []) ∧
      (l.state = .free ↔ l.sharedHolders = [] ∧ l.exclusiveHolders = [])) ∧
    ∀ session,
      ((l.acquire .shared session).1.isGranted = true ↔
        ∀ other, l.holds .exclusive other = true → other = session) ∧
      ((l.acquire .exclusive session).1.isGranted = true ↔
        ∀ mode other, l.holds mode other = true → other = session) ∧
      ∀ mode,
        ((l.acquire mode session).1 = .wouldBlock ∨ (l.acquire mode session).1 = .alreadyHeld →
          (l.acquire mode session).2 = l) ∧
        ((l.release mode session).1 = false → (l.release mode session).2 = l) := by
  intro l
  have h : l.Valid := valid_foldl_after calls .free
  refine ⟨⟨h.state_eq_exclusive_iff, h.state_eq_shared_iff, h.state_eq_free_iff⟩,
    fun session => ⟨h.isGranted_shared_iff, h.isGranted_exclusive_iff, fun mode => ⟨?_, ?_⟩⟩⟩
  · intro hold
    apply h.acquire_eq_self
    rintro (hnew | hnew) <;> rw [hnew] at hold <;> simp at hold
  · intro hnot
    rw [release_fst] at hnot
    exact release_eq_self hnot

/-- Of two sessions that share a lock neither may hold it alone; once the other one has left, the last
one may. -/
example :
    let shared : TableLock := [.acquire .shared 1, .acquire .shared 2].foldl after {}
    (shared.acquire .exclusive 1).1 = .wouldBlock ∧
      ((shared.after (.release .shared 2)).acquire .exclusive 1).1 = .upgraded := by
  decide

end TableLock

end PageDb
