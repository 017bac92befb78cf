import PageDb.Lock.TableLock

/-!
What requests and releases do to the lock of a table.

A lock is free, shared by some sessions, or held by one of them alone; `TableLock.Valid` lists these
three forms.  A request either is new, and then the session holds the lock in the way it asked for
and in no other, or it leaves the lock as it is.
-/

namespace PageDb

namespace TableLock

/-- The locks that requests and releases lead to. -/
inductive Valid : TableLock → Prop where
  | free : Valid {}
  | shared {sessions : List Nat} (hne : sessions ≠ []) (hnodup : sessions.Nodup) :
      Valid { state := .shared, sharedHolders := sessions }
  | exclusive (session : Nat) : Valid { state := .exclusive, exclusiveHolders := [session] }

/-- Whether a request would have to wait. -/
def Blocks (l : TableLock) (mode : LockMode) (session : Nat) : Prop :=
  (l.acquire mode session).1 = .wouldBlock

variable {l : TableLock} {mode mode' : LockMode} {session session' : Nat}

theorem insertHolder_perm (session : Nat) (sessions : List Nat) :
    (insertHolder session sessions).Perm (session :: sessions) := by
  induction sessions with
  | nil => exact .refl _
  | cons s rest ih =>
    rw [insertHolder]
    split
    · exact .refl _
    · exact (ih.cons s).trans (.swap session s rest)

theorem mem_insertHolder {sessions : List Nat} :
    session' ∈ insertHolder session sessions ↔ session' = session ∨ session' ∈ sessions := by
  rw [(insertHolder_perm session sessions).mem_iff, List.mem_cons]

theorem insertHolder_ne_nil {sessions : List Nat} : insertHolder session sessions ≠ [] := by
  intro h
  simpa [h] using (insertHolder_perm session sessions).length_eq

/-! ## Requests -/

theorem Valid.acquire (h : l.Valid) (mode : LockMode) (session : Nat) :
    (l.acquire mode session).2.Valid := by
  cases h with
  | free => cases mode <;> constructor <;> simp [insertHolder]
  | exclusive owner => cases mode <;> exact .exclusive owner
  | @shared sessions hne hnodup =>
    cases mode with
    | shared =>
      simp only [TableLock.acquire, acquireShared]
      split
      · exact .shared hne hnodup
      · rename_i hnew
        exact .shared insertHolder_ne_nil
          ((insertHolder_perm session sessions).nodup_iff.2 (List.nodup_cons.2 ⟨hnew, hnodup⟩))
    | exclusive =>
      simp only [TableLock.acquire, acquireExclusive]
      split
      · exact .exclusive session
      · exact .shared hne hnodup

/-- A request that is not new leaves the lock as it is. -/
theorem Valid.acquire_eq_self (h : l.Valid)
    (hold : ¬ ((l.acquire mode session).1 = .acquired ∨ (l.acquire mode session).1 = .upgraded)) :
    (l.acquire mode session).2 = l := by
  cases h with
  | free => cases mode <;> simp [TableLock.acquire, acquireShared, acquireExclusive] at hold
  | exclusive owner => cases mode <;> rfl
  | shared hne hnodup =>
    cases mode with
    | shared =>
      simp only [TableLock.acquire, acquireShared] at hold ⊢
      split
      · rfl
      · rename_i hnew
        simp [hnew] at hold
    | exclusive =>
      simp only [TableLock.acquire, acquireExclusive] at hold ⊢
      split
      · rename_i hsole
        simp [hsole] at hold
      · rfl

/-- After a new request the session holds the lock in the way it asked for only; for the others
nothing changes. -/
theorem Valid.holds_acquire (h : l.Valid)
    (hnew : (l.acquire mode session).1 = .acquired ∨ (l.acquire mode session).1 = .upgraded)
    (mode' : LockMode) (session' : Nat) :
    (l.acquire mode session).2.holds mode' session' =
      if session' = session then decide (mode' = mode) else l.holds mode' session' := by
  cases h with
  | free =>
    cases mode <;> cases mode' <;>
      simp [TableLock.acquire, acquireShared, acquireExclusive, insertHolder, holds]
  | exclusive owner =>
    cases mode <;> by_cases howner : session = owner <;>
      simp [TableLock.acquire, acquireShared, acquireExclusive, howner] at hnew
  | @shared sessions hne hnodup =>
    cases mode with
    | shared =>
      by_cases hin : session ∈ sessions
      · simp [TableLock.acquire, acquireShared, hin] at hnew
      · cases mode' <;> by_cases hself : session' = session <;>
          simp [TableLock.acquire, acquireShared, hin, holds, mem_insertHolder, hself]
    | exclusive =>
      by_cases hsole : sessions = [session]
      · cases mode' <;> by_cases hself : session' = session <;>
          simp [TableLock.acquire, acquireExclusive, hsole, insertHolder, holds, hself]
      · simp [TableLock.acquire, acquireExclusive, hsole] at hnew

/-- A request is new for a session only if it does not hold the lock alone already. -/
theorem Valid.not_holds_of_new (h : l.Valid)
    (hnew : (l.acquire mode session).1 = .acquired ∨ (l.acquire mode session).1 = .upgraded) :
    l.holds .exclusive session = false := by
  cases h with
  | exclusive owner =>
    cases mode <;> by_cases howner : session = owner <;>
      simp [TableLock.acquire, acquireShared, acquireExclusive, howner] at hnew
  | _ => rfl

/-- A lock that is held alone is held by nobody else and in no other way. -/
theorem Valid.sole (h : l.Valid) (hheld : l.holds .exclusive session = true)
    (hother : l.holds mode session' = true) : session' = session ∧ mode = .exclusive := by
  cases h with
  | free => cases hheld
  | shared => cases hheld
  | exclusive owner =>
    obtain rfl : session = owner := by simpa [holds] using hheld
    cases mode with
    | shared => cases hother
    | exclusive => exact ⟨by simpa [holds] using hother, rfl⟩

/-- A session that need not wait holds the lock afterwards: alone if it asked for that, and shared or
alone otherwise. -/
theorem Valid.holds_of_granted (h : l.Valid) (hgranted : ¬ l.Blocks mode session) :
    (l.acquire mode session).2.holds mode session = true ∨
      (l.acquire mode session).2.holds .exclusive session = true := by
  by_cases hnew : (l.acquire mode session).1 = .acquired ∨ (l.acquire mode session).1 = .upgraded
  · exact .inl (by simp [h.holds_acquire hnew])
  rw [h.acquire_eq_self hnew]
  unfold Blocks at hgranted
  cases h with
  | free => cases mode <;> simp [TableLock.acquire, acquireShared, acquireExclusive] at hnew
  | exclusive owner =>
    cases mode <;> by_cases howner : session = owner <;>
      simp [TableLock.acquire, acquireShared, acquireExclusive, howner, holds] at hgranted ⊢
  | @shared sessions hne hnodup =>
    cases mode with
    | shared =>
      by_cases hin : session ∈ sessions
      · exact .inl (by simpa [holds] using hin)
      · simp [TableLock.acquire, acquireShared, hin] at hnew
    | exclusive =>
      by_cases hsole : sessions = [session] <;>
        simp [TableLock.acquire, acquireExclusive, hsole] at hnew hgranted

/-- Whoever has to wait still has to after a request of another session. -/
theorem Valid.blocks_acquire (h : l.Valid) (hne : session' ≠ session)
    (hblocks : l.Blocks mode' session') (mode : LockMode) :
    (l.acquire mode session).2.Blocks mode' session' := by
  by_cases hnew : (l.acquire mode session).1 = .acquired ∨ (l.acquire mode session).1 = .upgraded
  case neg => rwa [h.acquire_eq_self hnew]
  unfold Blocks at hblocks ⊢
  cases h with
  | free => cases mode' <;> simp [TableLock.acquire, acquireShared, acquireExclusive] at hblocks
  | exclusive owner =>
    cases mode <;> by_cases howner : session = owner <;>
      simp [TableLock.acquire, acquireShared, acquireExclusive, howner] at hnew
  | @shared sessions hnonempty hnodup =>
    cases mode' with
    | shared =>
      by_cases hin : session' ∈ sessions <;>
        simp [TableLock.acquire, acquireShared, hin] at hblocks
    | exclusive =>
      cases mode with
      | shared =>
        -- two sessions share the lock now, so neither of them does so alone
        have htwo : insertHolder session sessions ≠ [session'] := by
          intro heq
          have hin := mem_insertHolder.2 (.inl rfl : session = session ∨ session ∈ sessions)
          rw [heq, List.mem_singleton] at hin
          exact hne hin.symm
        by_cases hin : session ∈ sessions
        · simp [TableLock.acquire, acquireShared, hin] at hnew
        · simp [TableLock.acquire, acquireShared, acquireExclusive, hin, htwo]
      | exclusive =>
        by_cases hsole : sessions = [session]
        · simp [TableLock.acquire, acquireExclusive, hsole, insertHolder, hne]
        · simp [TableLock.acquire, acquireExclusive, hsole] at hnew

/-! ## Releases -/

/-- A lock is given back if it was held in that way. -/
theorem release_fst (l : TableLock) (mode : LockMode) (session : Nat) :
    (l.release mode session).1 = l.holds mode session := by
  cases mode <;> simp only [release, releaseShared, releaseExclusive, holds] <;> split <;> simp_all

theorem release_eq_self (h : l.holds mode session = false) : (l.release mode session).2 = l := by
  cases mode <;> simp_all [release, releaseShared, releaseExclusive, holds]

/-- A lock that is held is given back by its only owner, or by one of those that share it. -/
theorem Valid.release_cases (h : l.Valid) (hholds : l.holds mode session = true) :
    (mode = .exclusive ∧ l = { state := .exclusive, exclusiveHolders := [session] } ∧
      (l.release mode session).2 = {}) ∨
    (mode = .shared ∧ ∃ sessions : List Nat, sessions.Nodup ∧ session ∈ sessions ∧
      l = { state := .shared, sharedHolders := sessions } ∧
      (l.release mode session).2 =
        { state := if sessions.erase session = [] then .free else .shared
          sharedHolders := sessions.erase session }) := by
  cases h with
  | free => cases mode <;> simp [holds] at hholds
  | exclusive owner =>
    cases mode with
    | shared => simp [holds] at hholds
    | exclusive =>
      obtain rfl : session = owner := by simpa [holds] using hholds
      exact .inl ⟨rfl, rfl, by simp [release, releaseExclusive]⟩
  | @shared sessions hne hnodup =>
    cases mode with
    | exclusive => simp [holds] at hholds
    | shared =>
      have hin : session ∈ sessions := by simpa [holds] using hholds
      exact .inr ⟨rfl, sessions, hnodup, hin, rfl, by simp [release, releaseShared, hin]⟩

theorem Valid.release (h : l.Valid) (mode : LockMode) (session : Nat) :
    (l.release mode session).2.Valid := by
  cases hholds : l.holds mode session with
  | false => rwa [release_eq_self hholds]
  | true =>
    obtain ⟨-, -, hafter⟩ | ⟨-, sessions, hnodup, -, -, hafter⟩ := h.release_cases hholds
    · rw [hafter]
      exact .free
    · rw [hafter]
      by_cases hrest : sessions.erase session = []
      · simpa [hrest] using Valid.free
      · simpa [hrest] using Valid.shared hrest (hnodup.erase session)

/-- After a release the session does not hold the lock in that way; nothing else changes. -/
theorem Valid.holds_release (h : l.Valid) (mode mode' : LockMode) (session session' : Nat) :
    (l.release mode session).2.holds mode' session' =
      (l.holds mode' session' && !decide (mode' = mode ∧ session' = session)) := by
  cases hholds : l.holds mode session with
  | false =>
    rw [release_eq_self hholds]
    by_cases hsame : mode' = mode ∧ session' = session
    · rw [hsame.1, hsame.2, hholds, Bool.false_and]
    · simp [hsame]
  | true =>
    obtain ⟨rfl, rfl, hafter⟩ | ⟨rfl, sessions, hnodup, -, rfl, hafter⟩ := h.release_cases hholds
    · rw [hafter]
      cases mode' <;> simp [holds]
    · rw [hafter]
      cases mode' <;> simp [holds, hnodup.mem_erase_iff, Bool.and_comm]

end TableLock

end PageDb
