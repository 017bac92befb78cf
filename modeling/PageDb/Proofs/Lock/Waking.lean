import PageDb.Proofs.Lock.Locking

/-!
No waiter sleeps through its turn.

Only the oldest waiter of a queue may be granted its request, and it tries again only when it is
woken.  So whatever could let the oldest waiter go on has to wake it: `Locking.Alert` says that an
oldest waiter who sleeps would be refused.  A step either wakes everyone or leaves every sleeper who
would be refused in that position.
-/

namespace PageDb

namespace LockManager

variable {m : LockManager} {r w : Request}

theorem not_mem_signal (m : LockManager) (w : Request) :
    { request := w, awake := false } ∉ m.signal.waiters := by
  intro hin
  obtain ⟨x, -, hx⟩ := List.mem_map.1 hin
  cases hx

/-- Who sleeps after `lull` is the waiter that was put to sleep, or slept before. -/
theorem mem_lull (h : { request := w, awake := false } ∈ (m.lull r).waiters) :
    w = r ∨ { request := w, awake := false } ∈ m.waiters := by
  obtain ⟨x, hx, heq⟩ := List.mem_map.1 h
  split at heq
  · rename_i hr
    cases heq
    exact .inl hr
  · exact .inr (heq ▸ hx)

theorem isOldest_congr {m' : LockManager} (h : m'.queues = m.queues) (w : Request) :
    m'.isOldest w = m.isOldest w := by
  rw [isOldest, isOldest, queue, queue, h]

/-- A newcomer does not come before those who wait already. -/
theorem isOldest_of_enqueue (h : m.Ordered) (hne : w.session ≠ r.session)
    (holdest : (m.enqueue r).isOldest w = true) : m.isOldest w = true := by
  rw [isOldest, queue_eq, queue?_enqueue h] at holdest
  split at holdest
  · rw [isOldest]
    cases hqueue : m.queue w.target.name w.mode with
    | nil =>
      rw [hqueue, Option.getD_some, List.nil_append, List.head?_cons, beq_iff_eq] at holdest
      exact absurd (Option.some.inj holdest).symm hne
    | cons s rest =>
      rwa [hqueue, Option.getD_some, List.cons_append, List.head?_cons] at holdest
  · exact holdest

end LockManager

namespace Locking

/-- The oldest waiter of a queue, if it sleeps, would be refused. -/
def Alert (c : Locking) : Prop :=
  ∀ w : Request, { request := w, awake := false } ∈ c.manager.waiters →
    c.manager.isOldest w = true → (c.manager.lockOf w.target.number).Blocks w.mode w.session

variable {all : Target → Prop} {c : Locking} {r : Request}

/-- Everyone is awake after a signal. -/
theorem alert_signal (m : LockManager) (waiting : List Request) : Alert ⟨m.signal, waiting⟩ :=
  fun w hw => absurd hw (m.not_mem_signal w)

/-- Locks and queues as they were, and nobody put to sleep. -/
theorem Alert.of_same (h : c.Alert) {m : LockManager} (hlocks : ∀ n, m.lockOf n = c.manager.lockOf n)
    (hqueues : m.queues = c.manager.queues) (hwaiters : m.waiters = c.manager.waiters)
    (waiting : List Request) : Alert ⟨m, waiting⟩ := by
  intro w hw holdest
  rw [hwaiters] at hw
  rw [LockManager.isOldest_congr hqueues] at holdest
  rw [hlocks]
  exact h w hw holdest

namespace Sound

variable (h : c.Sound all)

include h

theorem mem_waiting {w : Request} {awake : Bool}
    (hw : { request := w, awake := awake } ∈ c.manager.waiters) : w ∈ c.waiting :=
  h.queued.waiters ▸ List.mem_map.2 ⟨_, hw, rfl⟩

/-- A request that is refused leaves every lock as it is. -/
theorem lockOf_ask_refused
    (hrefused : (c.manager.lockOf r.target.number).Blocks r.mode r.session) (n : Nat) :
    (c.manager.ask r).2.lockOf n = c.manager.lockOf n := by
  have hsame := @TableLock.Valid.acquire_eq_self _ r.mode r.session (h.books.valid r.target.number)
    (by rw [hrefused]; simp)
  rw [LockManager.lockOf_ask h.books.ordered, hsame]
  split
  · rename_i hn
    rw [hn]
  · rfl

/-- A request of one session leaves those of the others refused. -/
theorem blocks_ask {w : Request} (hne : w.session ≠ r.session)
    (hblocks : (c.manager.lockOf w.target.number).Blocks w.mode w.session) :
    ((c.manager.ask r).2.lockOf w.target.number).Blocks w.mode w.session := by
  rw [LockManager.lockOf_ask h.books.ordered]
  split
  · rename_i hn
    rw [hn] at hblocks
    exact (h.books.valid r.target.number).blocks_acquire hne hblocks r.mode
  · exact hblocks

theorem alert_request (halert : c.Alert) (hidle : c.Idle r.session) :
    (c.after (.request r)).Alert := by
  have hframe := LockManager.record_frame (c.manager.ask r).2 r (c.manager.ask r).1
  have hothers : ∀ w, { request := w, awake := false } ∈ c.manager.waiters →
      w.session ≠ r.session := fun w hw => hidle w (h.mem_waiting hw)
  rw [after, LockManager.request_eq]
  cases hgranted : (c.manager.ask r).1.isGranted with
  | true =>
    intro w hw holdest
    simp only [if_true] at hw holdest ⊢
    rw [hframe.2.2] at hw
    rw [LockManager.isOldest_congr (m := c.manager) hframe.2.1] at holdest
    rw [LockManager.lockOf, hframe.1]
    exact h.blocks_ask (hothers w hw) (halert w hw holdest)
  | false =>
    have hrefused : (c.manager.lockOf r.target.number).Blocks r.mode r.session :=
      LockManager.isGranted_eq_false_iff.1 hgranted
    intro w hw holdest
    show ((c.manager.ask r).2.lockOf w.target.number).Blocks w.mode w.session
    rw [h.lockOf_ask_refused hrefused]
    rcases List.mem_append.1 hw with hw | hw
    · exact halert w hw (LockManager.isOldest_of_enqueue h.books.ordered (hothers w hw) holdest)
    · cases List.mem_singleton.1 hw
      exact hrefused

theorem alert_retry (halert : c.Alert) (r : Request) : (c.after (.retry r)).Alert := by
  rw [after, LockManager.retry_eq]
  cases holdest : c.manager.isOldest r with
  | false =>
    intro w hw hold
    -- only the request itself falls asleep, and it is not the oldest
    rcases LockManager.mem_lull hw with rfl | hw
    · exact absurd (holdest.symm.trans hold) Bool.false_ne_true
    · exact halert w hw hold
  | true =>
    cases hgranted : (c.manager.ask r).1.isGranted with
    | true => exact alert_signal _ _
    | false =>
      have hrefused : (c.manager.lockOf r.target.number).Blocks r.mode r.session :=
        LockManager.isGranted_eq_false_iff.1 hgranted
      intro w hw hold
      show ((c.manager.ask r).2.lockOf w.target.number).Blocks w.mode w.session
      rw [h.lockOf_ask_refused hrefused]
      rcases LockManager.mem_lull hw with rfl | hw
      · exact hrefused
      · exact halert w hw hold

theorem alert_release (halert : c.Alert) (r : Request) : (c.after (.release r)).Alert := by
  have hframe := LockManager.forget_frame (c.manager.withLock r.target.number
    ((c.manager.lockOf r.target.number).release r.mode r.session).2) r.session r.target.name r.mode
  rw [after, LockManager.release_eq]
  cases hheld : ((c.manager.lockOf r.target.number).release r.mode r.session).1 with
  | true => exact alert_signal _ _
  | false =>
    -- a lock that was not held stays as it is
    refine halert.of_same (fun n => ?_) hframe.2.1 hframe.2.2 _
    rw [TableLock.release_fst] at hheld
    show (c.manager.givenBack r).lockOf n = _
    rw [LockManager.lockOf, LockManager.givenBack, hframe.1]
    show (c.manager.withLock r.target.number _).lockOf n = _
    rw [LockManager.lockOf_withLock h.books.ordered, TableLock.release_eq_self hheld]
    split
    · rename_i hn
      rw [hn]
    · rfl

theorem alert_releaseAll (halert : c.Alert) {session : Nat} (hidle : c.Idle session) :
    (c.after (.releaseAll session)).Alert := by
  rw [after, LockManager.releaseAll_eq, h.leaveQueues_eq_self hidle]
  cases c.manager.records.get? session with
  | none => exact halert
  | some held => exact alert_signal _ _

/-- No step puts an oldest waiter to sleep that would be granted its request, nor makes the request
of a sleeping one grantable. -/
theorem alert_step (halert : c.Alert) {s : LockStep} (hs : c.Allows all s) : (c.after s).Alert := by
  cases s with
  | request r => exact h.alert_request halert hs.2
  | retry r => exact h.alert_retry halert r
  | giveUp r => exact alert_signal _ _
  | release r => exact h.alert_release halert r
  | releaseAll session => exact h.alert_releaseAll halert hs

end Sound

theorem Reachable.alert (h : Reachable all c) (hall : Target.Distinct all) : c.Alert := by
  induction h with
  | start => exact fun w hw => by cases hw
  | step hc hs ih => exact (hc.sound hall).alert_step ih hs

/-- Whoever is first in a queue and sleeps without a signal would not get the lock if it asked. -/
theorem wouldBlock_of_asleep (hall : Target.Distinct all) (h : Reachable all c) {t : Target}
    {mode : LockMode} {session : Nat}
    (hfirst : (c.manager.queue t.name mode).head? = some session)
    (hasleep : { request := ⟨session, t, mode⟩, awake := false } ∈ c.manager.waiters) :
    ((c.manager.lockOf t.number).acquire mode session).1 = .wouldBlock :=
  h.alert hall _ hasleep (beq_iff_eq.2 hfirst)

/-- A lock that two sessions wait for is given back; the one that wants it alone is quicker, and the
other one falls asleep again. -/
theorem wouldBlock_after_handover :
    ((([.request ⟨1, ⟨1, "shop.items"⟩, .exclusive⟩, .request ⟨2, ⟨1, "shop.items"⟩, .shared⟩,
        .request ⟨3, ⟨1, "shop.items"⟩, .exclusive⟩, .releaseAll 1,
        .retry ⟨3, ⟨1, "shop.items"⟩, .exclusive⟩,
        .retry ⟨2, ⟨1, "shop.items"⟩, .shared⟩].foldl after {}).manager.lockOf 1).acquire
          .shared 2).1 = .wouldBlock := by
  have hall : Target.Distinct fun t => t = ⟨1, "shop.items"⟩ := by
    rintro t u rfl rfl
    simp
  exact wouldBlock_of_asleep hall (t := ⟨1, "shop.items"⟩) (Reachable.start.steps (by decide))
    (by decide) (by decide)

end Locking

end PageDb
