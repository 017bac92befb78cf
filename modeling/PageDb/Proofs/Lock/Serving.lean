import PageDb.Proofs.Lock.Bookkeeping
import PageDb.Proofs.Lock.TableLock

/-!
Calls of one session and the locks of the others.

Whatever a session calls, the locks that other sessions hold are not affected, and no assumption
about the names of targets is needed for that.  What a granted request gives the session stays with
it until it gives the lock back itself.
-/

namespace PageDb

namespace LockManager

/-- The maps are in order and every lock is free, shared or held by one session. -/
structure Sound (m : LockManager) : Prop where
  ordered : m.Ordered
  valid : ∀ n, (m.lockOf n).Valid

/-- Whether a session holds a target in the given way, or alone. -/
def Guards (m : LockManager) (session : Nat) (mode : LockMode) (n : Nat) : Prop :=
  (m.lockOf n).holds mode session = true ∨ (m.lockOf n).holds .exclusive session = true

/-- The requests that wait. -/
def requests (m : LockManager) : List Request := m.waiters.map Waiter.request

/-- What a call of one session leads to: the other sessions hold what they held. -/
structure Serves (session : Nat) (m m' : LockManager) : Prop where
  sound : m'.Sound
  others : ∀ n mode s, s ≠ session → (m'.lockOf n).holds mode s = (m.lockOf n).holds mode s

variable {m m' m'' : LockManager} {session s n : Nat} {mode : LockMode} {r : Request}

theorem sound_empty : ({} : LockManager).Sound := ⟨ordered_empty, fun _ => .free⟩

theorem Guards.of_same (h : m.Guards session mode n) (hlocks : m'.locks = m.locks) :
    m'.Guards session mode n := by
  rwa [Guards, lockOf, hlocks]

namespace Serves

theorem refl (h : m.Sound) : Serves session m m := ⟨h, fun _ _ _ _ => rfl⟩

theorem trans (h : Serves session m m') (h' : Serves session m' m'') : Serves session m m'' :=
  ⟨h'.sound, fun n mode s hs => (h'.others n mode s hs).trans (h.others n mode s hs)⟩

theorem guards (h : Serves session m m') (hs : s ≠ session) (hguards : m.Guards s mode n) :
    m'.Guards s mode n := by
  rwa [Guards, h.others n mode s hs, h.others n .exclusive s hs]

/-- A part of a call that does not touch the locks. -/
theorem of_same (h : m.Sound) (hordered : m'.Ordered) (hlocks : m'.locks = m.locks) :
    Serves session m m' := by
  have hsame (n : Nat) : m'.lockOf n = m.lockOf n := by rw [lockOf, hlocks, lockOf]
  refine ⟨⟨hordered, fun n => ?_⟩, fun n mode s _ => ?_⟩
  · rw [hsame]
    exact h.valid n
  · rw [hsame]

end Serves

theorem Ordered.withWaiters (h : m.Ordered) (waiters : List Waiter) :
    ({ m with waiters := waiters } : LockManager).Ordered :=
  ⟨h.locks, h.queues, h.records, h.holdings⟩

/-! ## Asking -/

theorem acquire_others {l : TableLock} (h : l.Valid) (hs : s ≠ session) (asked mode : LockMode) :
    (l.acquire asked session).2.holds mode s = l.holds mode s := by
  by_cases hnew : (l.acquire asked session).1 = .acquired ∨ (l.acquire asked session).1 = .upgraded
  · rw [h.holds_acquire hnew, if_neg hs]
  · rw [h.acquire_eq_self hnew]

theorem serves_ask (h : m.Sound) (r : Request) : Serves r.session m (m.ask r).2 := by
  refine ⟨⟨h.ordered.withLock _ _, fun n => ?_⟩, fun n mode s hs => ?_⟩
  · rw [lockOf_ask h.ordered]
    split
    · exact (h.valid _).acquire r.mode r.session
    · exact h.valid n
  · rw [lockOf_ask h.ordered]
    split
    · rename_i hn
      rw [acquire_others (h.valid _) hs, hn]
    · rfl

/-- Who is granted a request holds the lock. -/
theorem guards_ask (h : m.Sound) (hgranted : (m.ask r).1.isGranted = true) :
    (m.ask r).2.Guards r.session r.mode r.target.number := by
  have hgoes : ¬ (m.lockOf r.target.number).Blocks r.mode r.session := by
    intro hblocks
    have hrefused : (m.ask r).1 = .wouldBlock := hblocks
    rw [isGranted_eq_false_iff.2 hrefused] at hgranted
    cases hgranted
  rw [Guards, lockOf_ask h.ordered, if_pos rfl]
  exact (h.valid r.target.number).holds_of_granted hgoes

/-- Asking for a lock costs the session none that it holds in the same way. -/
theorem guards_ask_of_guards (h : m.Sound) (r : Request) (hguards : m.Guards r.session r.mode n) :
    (m.ask r).2.Guards r.session r.mode n := by
  by_cases hn : n = r.target.number
  case neg => rwa [Guards, lockOf_ask h.ordered, if_neg hn]
  subst hn
  cases hgranted : (m.ask r).1.isGranted with
  | true => exact guards_ask h hgranted
  | false =>
    have hrefused : (m.ask r).1 = .wouldBlock := isGranted_eq_false_iff.1 hgranted
    have hold : ¬ ((m.ask r).1 = .acquired ∨ (m.ask r).1 = .upgraded) := by simp [hrefused]
    rw [Guards, lockOf_ask h.ordered, if_pos rfl, (h.valid _).acquire_eq_self hold]
    exact hguards

/-! ## Requests -/

theorem serves_request (h : m.Sound) (r : Request) : Serves r.session m (m.request r).2 := by
  have hask := serves_ask h r
  rw [request_eq]
  split
  · exact hask.trans (.of_same hask.sound (hask.sound.ordered.record r _) (record_frame _ r _).1)
  · exact hask.trans (.of_same hask.sound ((hask.sound.ordered.enqueue r).withWaiters _) rfl)

theorem requests_request (m : LockManager) (r : Request) :
    (m.request r).2.requests = if (m.request r).1 then m.requests else m.requests ++ [r] := by
  rw [request_eq]
  cases (m.ask r).1.isGranted with
  | true =>
    simp only [if_true, requests]
    rw [(record_frame _ r _).2.2]
    rfl
  | false => simp [requests]

theorem guards_request (h : m.Sound) (hgranted : (m.request r).1 = true) :
    (m.request r).2.Guards r.session r.mode r.target.number := by
  rw [request_eq] at hgranted ⊢
  cases hask : (m.ask r).1.isGranted with
  | true => exact (guards_ask h hask).of_same (record_frame _ r _).1
  | false => simp [hask] at hgranted

theorem guards_request_of_guards (h : m.Sound) (r : Request)
    (hguards : m.Guards r.session r.mode n) : (m.request r).2.Guards r.session r.mode n := by
  have hask := guards_ask_of_guards h r hguards
  rw [request_eq]
  split
  · exact hask.of_same (record_frame _ r _).1
  · exact hask

/-! ## Retries -/

theorem sound_dequeue (h : m.Sound) (r : Request) : (m.dequeue r).Sound :=
  ⟨h.ordered.dequeue r, h.valid⟩

theorem serves_retry (h : m.Sound) (r : Request) : Serves r.session m (m.retry r).2 := by
  have hask := serves_ask h r
  have hlater := serves_ask (sound_dequeue h r) r
  rw [retry_eq]
  split
  · split
    · have hrecord := hlater.sound.ordered.record r (m.ask r).1
      refine Serves.trans ⟨hlater.sound, hlater.others⟩ (.of_same hlater.sound ?_ ?_)
      · exact (hrecord.withWaiters _).withWaiters _
      · exact (record_frame _ r _).1
    · exact hask.trans (.of_same hask.sound (hask.sound.ordered.withWaiters _) rfl)
  · exact .of_same h (h.ordered.withWaiters _) rfl

theorem requests_retry (m : LockManager) (r : Request) :
    (m.retry r).2.requests = if (m.retry r).1 then m.requests.erase r else m.requests := by
  rw [retry_eq]
  cases m.isOldest r with
  | false => exact map_request_lull m r
  | true =>
    cases (m.ask r).1.isGranted with
    | false => exact map_request_lull (m.ask r).2 r
    | true =>
      simp only [if_true, requests]
      rw [map_request_signal, map_request_withdraw, (record_frame _ r _).2.2]
      rfl

theorem guards_retry (h : m.Sound) (hgranted : (m.retry r).1 = true) :
    (m.retry r).2.Guards r.session r.mode r.target.number := by
  rw [retry_eq] at hgranted ⊢
  cases holdest : m.isOldest r with
  | false => simp [holdest] at hgranted
  | true =>
    cases hask : (m.ask r).1.isGranted with
    | false => simp [holdest, hask] at hgranted
    | true =>
      have hguards : ((m.dequeue r).ask r).2.Guards r.session r.mode r.target.number :=
        guards_ask (sound_dequeue h r) hask
      exact hguards.of_same (record_frame _ r _).1

theorem guards_retry_of_guards (h : m.Sound) (r : Request)
    (hguards : m.Guards r.session r.mode n) : (m.retry r).2.Guards r.session r.mode n := by
  rw [retry_eq]
  split
  · split
    · have hlater : ((m.dequeue r).ask r).2.Guards r.session r.mode n :=
        guards_ask_of_guards (sound_dequeue h r) r hguards
      exact hlater.of_same (record_frame _ r _).1
    · exact guards_ask_of_guards h r hguards
  · exact hguards

/-! ## Releases -/

theorem serves_release (h : m.Sound) (r : Request) : Serves r.session m (m.release r).2 := by
  have hlock := lockOf_withLock h.ordered r.target.number
    ((m.lockOf r.target.number).release r.mode r.session).2
  have hwith : Serves r.session m (m.withLock r.target.number
      ((m.lockOf r.target.number).release r.mode r.session).2) := by
    refine ⟨⟨h.ordered.withLock _ _, fun n => ?_⟩, fun n mode s hs => ?_⟩
    · rw [hlock]
      split
      · exact (h.valid _).release r.mode r.session
      · exact h.valid n
    · rw [hlock]
      split
      · rename_i hn
        simp [(h.valid r.target.number).holds_release, hs, hn]
      · rfl
  have hgiven : Serves r.session m (m.givenBack r) :=
    hwith.trans (.of_same hwith.sound (hwith.sound.ordered.forget _ _ _) (forget_frame _ _ _ _).1)
  rw [release_eq]
  split
  · exact hgiven.trans (.of_same hgiven.sound (hgiven.sound.ordered.withWaiters _) rfl)
  · exact hgiven

theorem requests_release (m : LockManager) (r : Request) :
    (m.release r).2.requests = m.requests := by
  have hgiven : (m.givenBack r).requests = m.requests :=
    congrArg (List.map Waiter.request) (forget_frame _ _ _ _).2.2
  rw [release_eq]
  dsimp only
  split
  · exact (map_request_signal _).trans hgiven
  · exact hgiven

theorem Ordered.leaveQueues (h : m.Ordered) (session : Nat) : (m.leaveQueues session).Ordered := by
  refine ⟨h.locks, fun mode => ?_, h.records, h.holdings⟩
  have hshorter (queues : SortedMap String (List Nat)) (hqueues : queues.Ascending fun _ => True)
      (f : List Nat → List Nat) (p : String × List Nat → Bool) :
      SortedMap.AscendingList (fun _ => True) ((queues.mapValues f).toList.filter p) :=
    ⟨fun _ _ => trivial, (hqueues.mapValues f).increasing.sublist List.filter_sublist⟩
  cases mode with
  | shared => exact hshorter _ (h.queues .shared) _ _
  | exclusive => exact hshorter _ (h.queues .exclusive) _ _

theorem serves_releaseAll (h : m.Sound) (session : Nat) :
    Serves session m (m.releaseAll session).2 := by
  have hleft : Serves session m (m.leaveQueues session) :=
    .of_same h (h.ordered.leaveQueues session) rfl
  rw [releaseAll_eq]
  cases (m.leaveQueues session).records.get? session with
  | none => exact hleft
  | some held =>
    obtain ⟨hordered, hvalid, hholds⟩ :=
      lockOf_freed (hleft.sound.ordered.withoutRecord session) hleft.sound.valid session held
    refine ⟨⟨hordered.withWaiters _, hvalid⟩, fun n mode s hs => ?_⟩
    show ((((m.leaveQueues session).withoutRecord session).freed session held).lockOf n).holds mode s
      = _
    rw [hholds]
    simp only [hs, and_false, decide_false, Bool.not_false, Bool.and_true]
    rfl

theorem requests_releaseAll (m : LockManager) (session : Nat) :
    (m.releaseAll session).2.requests = m.requests := by
  rw [releaseAll_eq]
  cases (m.leaveQueues session).records.get? session with
  | none => rfl
  | some held =>
    refine (map_request_signal _).trans ?_
    rw [(freed_frame _ _ _).2.2]
    rfl

end LockManager

end PageDb
