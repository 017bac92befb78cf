import PageDb.Proofs.Lock.Books
import Mathlib.Data.List.Nodup

/-!
A lock manager and the sessions that call it.

`Locking` puts beside the manager the requests whose calls have not returned, in the order in which
they began to wait.  Its steps are the atomic steps of the manager, in any order; a session that
waits makes no other call until its request returns.  `Locking.Sound` says that the books agree and
that every queue lists exactly the sessions that wait for its target and mode.
-/

namespace PageDb

/-- A lock manager with the requests that wait, in the order in which they began to. -/
structure Locking where
  manager : LockManager := {}
  waiting : List Request := []

/-- The atomic steps of a lock manager. -/
inductive LockStep where
  | request (r : Request)
  | retry (r : Request)
  | giveUp (r : Request)
  | release (r : Request)
  | releaseAll (session : Nat)

namespace Locking

/-- Whether the session has no request that waits. -/
def Idle (c : Locking) (session : Nat) : Prop := ∀ r ∈ c.waiting, r.session ≠ session

/-- Who may take which step: sessions that wait only try again or give up.  A waiter may try again
whether it was woken or not. -/
def Allows (all : Target → Prop) (c : Locking) : LockStep → Prop
  | .request r => all r.target ∧ c.Idle r.session
  | .retry r => r ∈ c.waiting
  | .giveUp r => r ∈ c.waiting
  | .release r => all r.target ∧ c.Idle r.session
  | .releaseAll session => c.Idle session

/-- What a step does.  A request waits from its first attempt until it is granted or given up. -/
def after (c : Locking) : LockStep → Locking
  | .request r =>
    let (granted, manager) := c.manager.request r
    ⟨manager, if granted then c.waiting else c.waiting ++ [r]⟩
  | .retry r =>
    let (granted, manager) := c.manager.retry r
    ⟨manager, if granted then c.waiting.erase r else c.waiting⟩
  | .giveUp r => ⟨c.manager.giveUp r, c.waiting.erase r⟩
  | .release r => ⟨(c.manager.release r).2, c.waiting⟩
  | .releaseAll session => ⟨(c.manager.releaseAll session).2, c.waiting⟩

/-- What steps lead to, from a manager that nobody has called yet. -/
inductive Reachable (all : Target → Prop) : Locking → Prop where
  | start : Reachable all {}
  | step {c : Locking} {s : LockStep} (h : Reachable all c) (hs : c.Allows all s) :
      Reachable all (c.after s)

instance (c : Locking) (session : Nat) : Decidable (c.Idle session) :=
  inferInstanceAs (Decidable (∀ r ∈ c.waiting, r.session ≠ session))

instance (all : Target → Prop) [DecidablePred all] (c : Locking) :
    (s : LockStep) → Decidable (c.Allows all s)
  | .request r => inferInstanceAs (Decidable (all r.target ∧ c.Idle r.session))
  | .retry r => inferInstanceAs (Decidable (r ∈ c.waiting))
  | .giveUp r => inferInstanceAs (Decidable (r ∈ c.waiting))
  | .release r => inferInstanceAs (Decidable (all r.target ∧ c.Idle r.session))
  | .releaseAll session => inferInstanceAs (Decidable (c.Idle session))

/-- Whether steps may be taken one after the other. -/
def AllowsAll (all : Target → Prop) [DecidablePred all] : Locking → List LockStep → Bool
  | _, [] => true
  | c, s :: rest => decide (c.Allows all s) && AllowsAll all (c.after s) rest

theorem Reachable.steps {all : Target → Prop} [DecidablePred all] {c : Locking}
    (h : Reachable all c) {steps : List LockStep} (hsteps : AllowsAll all c steps = true) :
    Reachable all (steps.foldl after c) := by
  induction steps generalizing c with
  | nil => exact h
  | cons s rest ih =>
    rw [AllowsAll, Bool.and_eq_true, decide_eq_true_iff] at hsteps
    exact ih (.step h hsteps.1) hsteps.2

/-- The sessions that wait for a target of the given name, the longest waiting first. -/
def line (waiting : List Request) (mode : LockMode) (name : String) : List Nat :=
  (waiting.filter fun r => r.mode = mode ∧ r.target.name = name).map Request.session

/-- The queues are what the waiting requests make them, and every waiting request has its waiter. -/
structure Queued (c : Locking) : Prop where
  queues : ∀ mode name, c.manager.queue? mode name = LockManager.kept (line c.waiting mode name)
  waiters : c.manager.waiters.map Waiter.request = c.waiting

/-- The books agree, the queues are right, and no session waits twice. -/
structure Sound (all : Target → Prop) (c : Locking) : Prop where
  books : c.manager.Books all
  queued : c.Queued
  single : (c.waiting.map Request.session).Nodup
  aimed : ∀ r ∈ c.waiting, all r.target

variable {all : Target → Prop} {c : Locking} {waiting : List Request} {r : Request}

/-! ## Waiting requests that come and go -/

theorem line_append (waiting : List Request) (r : Request) (mode : LockMode) (name : String) :
    line (waiting ++ [r]) mode name =
      if mode = r.mode ∧ name = r.target.name then line waiting mode name ++ [r.session]
      else line waiting mode name := by
  simp only [line, List.filter_append, List.map_append, List.filter_singleton, eq_comm (a := mode),
    eq_comm (a := name)]
  split <;> rename_i h <;> simp [h]

/-- A waiting request is the only one of its session. -/
theorem eq_of_session_eq (h : (waiting.map Request.session).Nodup) {w : Request} (hw : w ∈ waiting)
    (hr : r ∈ waiting) (heq : w.session = r.session) : w = r :=
  List.inj_on_of_nodup_map h hw hr heq

theorem erase_eq_filter (h : (waiting.map Request.session).Nodup) (hr : r ∈ waiting) :
    waiting.erase r = waiting.filter fun w => w.session ≠ r.session := by
  rw [List.Nodup.erase_eq_filter (List.Nodup.of_map _ h)]
  refine List.filter_congr fun w hw => ?_
  by_cases heq : w = r
  · simp [heq]
  · have hne : w.session ≠ r.session := fun hsession => heq (eq_of_session_eq h hw hr hsession)
    simp [heq, hne]

theorem line_erase (h : (waiting.map Request.session).Nodup) (hr : r ∈ waiting) (mode : LockMode)
    (name : String) :
    line (waiting.erase r) mode name =
      if mode = r.mode ∧ name = r.target.name then
        (line waiting mode name).filter fun session => session ≠ r.session
      else line waiting mode name := by
  have hline : line (waiting.erase r) mode name =
      (line waiting mode name).filter fun session => session ≠ r.session := by
    rw [erase_eq_filter h hr, line, line, List.filter_map, List.filter_filter, List.filter_filter]
    refine congrArg (List.map Request.session) (List.filter_congr fun w _ => ?_)
    exact Bool.and_comm _ _
  rw [hline]
  split
  · rfl
  · rename_i hother
    refine List.filter_eq_self.2 fun session hsession => decide_eq_true ?_
    rintro rfl
    obtain ⟨w, hw, heq⟩ := List.mem_map.1 hsession
    rw [List.mem_filter, decide_eq_true_iff] at hw
    have hwr := eq_of_session_eq h hw.1 hr heq
    exact hother ⟨hwr ▸ hw.2.1.symm, hwr ▸ hw.2.2.symm⟩

theorem kept_bind_filter (queue : List Nat) (p : Nat → Bool) :
    (LockManager.kept queue).bind (fun queue => LockManager.kept (queue.filter p)) =
      LockManager.kept (queue.filter p) := by
  unfold LockManager.kept
  by_cases h : queue = []
  · simp [h]
  · simp [h]

/-! ## The queues after each step -/

namespace Queued

/-- Only queues, waiters and waiting requests matter. -/
theorem of_same (h : c.Queued) {m : LockManager} (hqueues : m.queues = c.manager.queues)
    (hwaiters : m.waiters.map Waiter.request = c.manager.waiters.map Waiter.request) :
    Queued ⟨m, c.waiting⟩ where
  queues mode name := by
    rw [LockManager.queue?, hqueues]
    exact h.queues mode name
  waiters := hwaiters.trans h.waiters

theorem queue_eq (h : c.Queued) (mode : LockMode) (name : String) :
    c.manager.queue name mode = line c.waiting mode name := by
  rw [LockManager.queue_eq, h.queues, LockManager.getD_kept]

theorem enqueue (h : c.Queued) {m : LockManager} (hordered : m.Ordered)
    (hqueues : m.queues = c.manager.queues) (hwaiters : m.waiters = c.manager.waiters) (r : Request) :
    Queued ⟨{ m.enqueue r with waiters := m.waiters ++ [{ request := r }] }, c.waiting ++ [r]⟩ where
  queues mode name := by
    have hqueue := (h.of_same hqueues (congrArg _ hwaiters)).queue_eq mode name
    have hsame := (h.of_same hqueues (congrArg _ hwaiters)).queues mode name
    show (m.enqueue r).queue? mode name = _
    rw [LockManager.queue?_enqueue hordered, line_append, hqueue, hsame]
    split
    · simp [LockManager.kept]
    · rfl
  waiters := by simp [hwaiters, h.waiters]

theorem dequeue (h : c.Queued) (hsingle : (c.waiting.map Request.session).Nodup)
    (hr : r ∈ c.waiting) {m : LockManager} (hordered : m.Ordered)
    (hqueues : m.queues = c.manager.queues) (hwaiters : m.waiters = c.manager.waiters)
    {m' : LockManager} (hqueues' : m'.queues = (m.dequeue r).queues)
    (hwaiters' : m'.waiters = m.waiters) :
    Queued ⟨(m'.withdraw r).signal, c.waiting.erase r⟩ where
  queues mode name := by
    have hsame := (h.of_same hqueues (congrArg _ hwaiters)).queues mode name
    show (m'.queues.get mode).get? name = _
    rw [hqueues']
    show (m.dequeue r).queue? mode name = _
    rw [LockManager.queue?_dequeue hordered, line_erase hsingle hr, hsame]
    split
    · exact kept_bind_filter _ _
    · rfl
  waiters := by
    rw [LockManager.map_request_signal, LockManager.map_request_withdraw, hwaiters', hwaiters,
      h.waiters]

end Queued

/-! ## Every step keeps it all in order -/

theorem sound_start (all : Target → Prop) : ({} : Locking).Sound all where
  books := LockManager.books_empty all
  queued := ⟨fun mode _ => by cases mode <;> rfl, rfl⟩
  single := .nil
  aimed _ h := by cases h

namespace Sound

theorem erase (h : c.Sound all) (r : Request) :
    ((c.waiting.erase r).map Request.session).Nodup ∧ ∀ w ∈ c.waiting.erase r, all w.target :=
  ⟨h.single.sublist (List.erase_sublist.map _), fun w hw => h.aimed w (List.mem_of_mem_erase hw)⟩

theorem request (h : c.Sound all) (hall : Target.Distinct all) (hr : all r.target)
    (hidle : c.Idle r.session) : (c.after (.request r)).Sound all := by
  rw [after, LockManager.request_eq]
  have hframe := LockManager.record_frame (c.manager.ask r).2 r (c.manager.ask r).1
  cases hgranted : (c.manager.ask r).1.isGranted with
  | true =>
    exact ⟨h.books.ask hall hr, h.queued.of_same hframe.2.1 (congrArg _ hframe.2.2), h.single,
      h.aimed⟩
  | false =>
    have hbooks := h.books.ask_refused hall hr (LockManager.isGranted_eq_false_iff.1 hgranted)
    refine ⟨(hbooks.enqueue r).withWaiters _, h.queued.enqueue hbooks.ordered rfl rfl r, ?_, ?_⟩
    · simp only [Bool.false_eq_true, if_false, List.map_append, List.map_cons, List.map_nil]
      -- a session that asks has been waiting for nothing
      refine List.nodup_append.2 ⟨h.single, List.nodup_singleton _, ?_⟩
      rintro session hsession _ hlast rfl
      obtain ⟨w, hw, heq⟩ := List.mem_map.1 hsession
      exact hidle w hw (heq.trans (List.mem_singleton.1 hlast))
    · intro w hw
      rcases List.mem_append.1 hw with hw | hw
      · exact h.aimed w hw
      · exact List.mem_singleton.1 hw ▸ hr

theorem retry (h : c.Sound all) (hall : Target.Distinct all) (hr : r ∈ c.waiting) :
    (c.after (.retry r)).Sound all := by
  rw [after, LockManager.retry_eq]
  cases c.manager.isOldest r with
  | false =>
    exact ⟨h.books.withWaiters _, h.queued.of_same rfl (LockManager.map_request_lull _ r), h.single,
      h.aimed⟩
  | true =>
    cases hgranted : (c.manager.ask r).1.isGranted with
    | false =>
      have hbooks :=
        h.books.ask_refused hall (h.aimed r hr) (LockManager.isGranted_eq_false_iff.1 hgranted)
      exact ⟨hbooks.withWaiters _, h.queued.of_same rfl (LockManager.map_request_lull _ r),
        h.single, h.aimed⟩
    | true =>
      have hframe := LockManager.record_frame ((c.manager.dequeue r).ask r).2 r (c.manager.ask r).1
      obtain ⟨hsingle, haimed⟩ := h.erase r
      refine ⟨((h.books.dequeue r).ask hall (h.aimed r hr)).withWaiters _, ?_, hsingle, haimed⟩
      exact h.queued.dequeue h.single hr h.books.ordered rfl rfl hframe.2.1 hframe.2.2

theorem giveUp (h : c.Sound all) (hr : r ∈ c.waiting) : (c.after (.giveUp r)).Sound all := by
  obtain ⟨hsingle, haimed⟩ := h.erase r
  exact ⟨(h.books.dequeue r).withWaiters _,
    h.queued.dequeue h.single hr h.books.ordered rfl rfl rfl rfl, hsingle, haimed⟩

theorem release (h : c.Sound all) (hall : Target.Distinct all) (hr : all r.target) :
    (c.after (.release r)).Sound all := by
  have hbooks := h.books.givenBack hall hr
  have hframe := LockManager.forget_frame (c.manager.withLock r.target.number
    ((c.manager.lockOf r.target.number).release r.mode r.session).2) r.session r.target.name r.mode
  have hqueued := h.queued.of_same hframe.2.1 (congrArg _ hframe.2.2)
  rw [after, LockManager.release_eq]
  split
  · exact ⟨hbooks.withWaiters _, hqueued.of_same rfl (LockManager.map_request_signal _), h.single,
      h.aimed⟩
  · exact ⟨hbooks, hqueued, h.single, h.aimed⟩

/-- A session that waits for nothing is in no queue. -/
theorem leaveQueues_eq_self (h : c.Sound all) {session : Nat} (hidle : c.Idle session) :
    c.manager.leaveQueues session = c.manager := by
  refine LockManager.leaveQueues_eq_self h.books.ordered fun mode name queue hqueue => ?_
  rw [h.queued.queues, LockManager.kept] at hqueue
  split at hqueue
  · cases hqueue
  · rename_i hne
    obtain rfl : line c.waiting mode name = queue := by simpa using hqueue
    refine ⟨hne, fun hin => ?_⟩
    obtain ⟨w, hw, heq⟩ := List.mem_map.1 hin
    exact hidle w (List.mem_filter.1 hw).1 heq

theorem releaseAll (h : c.Sound all) {session : Nat} (hidle : c.Idle session) :
    (c.after (.releaseAll session)).Sound all := by
  have hleave := h.leaveQueues_eq_self hidle
  have hbooks := h.books.releaseAll hleave
  rw [after]
  rw [LockManager.releaseAll_eq, hleave] at hbooks ⊢
  cases hrecord : c.manager.records.get? session with
  | none => exact ⟨h.books, h.queued, h.single, h.aimed⟩
  | some held =>
    rw [hrecord] at hbooks
    have hframe := LockManager.freed_frame (c.manager.withoutRecord session) session held
    refine ⟨hbooks, h.queued.of_same hframe.1 ?_, h.single, h.aimed⟩
    exact (LockManager.map_request_signal _).trans (congrArg _ hframe.2.2)

theorem step (h : c.Sound all) (hall : Target.Distinct all) {s : LockStep} (hs : c.Allows all s) :
    (c.after s).Sound all := by
  cases s with
  | request r => exact h.request hall hs.1 hs.2
  | retry r => exact h.retry hall hs
  | giveUp r => exact h.giveUp hs
  | release r => exact h.release hall hs.1
  | releaseAll session => exact h.releaseAll hs

end Sound

theorem Reachable.sound (h : Reachable all c) (hall : Target.Distinct all) : c.Sound all := by
  induction h with
  | start => exact sound_start all
  | step _ hs ih => exact ih.step hall hs

/-! ## What holds at any time -/

/-- The waiting requests for a target, the oldest first. -/
def waitersFor (c : Locking) (t : Target) (mode : LockMode) : List Request :=
  c.waiting.filter fun r => r.mode = mode ∧ r.target = t

/-- Records and holders, queues and waiters agree, and grants go to the oldest. -/
structure Accounted (all : Target → Prop) (c : Locking) : Prop where
  /-- A name is recorded for the holders of its target, and for no other session. -/
  recorded : ∀ t, all t → ∀ session mode, t.name ∈ c.manager.targets session mode ↔
    (c.manager.lockOf t.number).holds mode session = true
  /-- A session that holds nothing has no record. -/
  filled : ∀ session held, c.manager.records.get? session = some held →
    held.shared.isEmpty = false ∨ held.exclusive.isEmpty = false
  /-- A queue lists the sessions that wait, in the order in which they began to. -/
  queued : ∀ t, all t → ∀ mode,
    c.manager.queue t.name mode = (c.waitersFor t mode).map Request.session
  once : ∀ t, all t → ∀ mode, (c.manager.queue t.name mode).Nodup
  nonempty : ∀ mode name, (c.manager.queues.get mode).get? name ≠ some []
  /-- A waiting request that is granted is the oldest one for its target and mode. -/
  oldest : ∀ r ∈ c.waiting, (c.manager.retry r).1 = true →
    (c.waitersFor r.target r.mode).head? = some r

theorem Sound.mem_targets_iff (h : c.Sound all) (hall : Target.Distinct all) {t : Target} (ht : all t)
    (session : Nat) (mode : LockMode) :
    t.name ∈ c.manager.targets session mode ↔
      (c.manager.lockOf t.number).holds mode session = true := by
  have hrecorded := h.books.recorded?_eq hall ht session mode
  have hascending := h.books.ordered.holdings session mode
  constructor
  · intro hin
    obtain ⟨⟨name, n⟩, hmem, rfl⟩ := List.mem_map.1 hin
    have hsome := (SortedMap.mem_toList_iff hascending).1 hmem
    rw [← LockManager.recorded?, hrecorded] at hsome
    split at hsome
    · rename_i hholds
      exact hholds
    · cases hsome
  · intro hholds
    rw [if_pos hholds] at hrecorded
    exact List.mem_map.2 ⟨(t.name, t.number), (SortedMap.mem_toList_iff hascending).2 hrecorded, rfl⟩

/-- Where names tell targets apart, the sessions in the queue of a name wait for its target. -/
theorem Sound.queue_eq (h : c.Sound all) (hall : Target.Distinct all) {t : Target} (ht : all t)
    (mode : LockMode) :
    c.manager.queue t.name mode = (c.waitersFor t mode).map Request.session := by
  rw [h.queued.queue_eq, line, waitersFor]
  refine congrArg _ (List.filter_congr fun r hr => decide_eq_decide.2 (and_congr_right fun _ => ?_))
  refine ⟨fun hname => ?_, congrArg Target.name⟩
  have hnumber := (hall _ _ (h.aimed r hr) ht).2 hname
  cases htarget : r.target
  rw [htarget] at hname hnumber
  cases hname
  cases hnumber
  rfl

theorem Sound.oldest (h : c.Sound all) (hall : Target.Distinct all) (hr : r ∈ c.waiting)
    (holdest : c.manager.isOldest r = true) : (c.waitersFor r.target r.mode).head? = some r := by
  rw [LockManager.isOldest, h.queue_eq hall (h.aimed r hr), beq_iff_eq, List.head?_map,
    Option.map_eq_some_iff] at holdest
  -- the queue begins with a session, and a session waits with one request
  obtain ⟨w, hw, hsession⟩ := holdest
  have hwaits := (List.mem_filter.1 (List.mem_of_head? hw)).1
  rw [hw, eq_of_session_eq h.single hwaits hr hsession]

/-- Whatever the sessions do and in whatever order, the manager stays accounted. -/
theorem accounted_of_reachable (hall : Target.Distinct all) (h : Reachable all c) :
    c.Accounted all := by
  have hsound := h.sound hall
  refine ⟨fun t ht => hsound.mem_targets_iff hall ht, hsound.books.filled,
    fun t ht => hsound.queue_eq hall ht, fun t ht mode => ?_, fun mode name hempty => ?_,
    fun r hr hgranted => hsound.oldest hall hr ?_⟩
  · rw [hsound.queue_eq hall ht]
    exact hsound.single.sublist (List.filter_sublist.map _)
  · have hkept := (hsound.queued.queues mode name).symm.trans hempty
    rw [LockManager.kept] at hkept
    split at hkept
    · cases hkept
    · rename_i hne
      exact hne (by simpa using hkept)
  · rw [LockManager.retry_eq] at hgranted
    split at hgranted
    · assumption
    · cases hgranted

/-- One session holds a table alone and two wait to share it; it gives everything back, and the first
of the two goes on. -/
theorem accounted_after_handover :
    Accounted (fun t => t = ⟨1, "shop.items"⟩ ∨ t = ⟨2, "shop.orders"⟩)
      ([.request ⟨1, ⟨1, "shop.items"⟩, .exclusive⟩, .request ⟨2, ⟨1, "shop.items"⟩, .shared⟩,
        .request ⟨3, ⟨1, "shop.items"⟩, .shared⟩, .releaseAll 1,
        .retry ⟨2, ⟨1, "shop.items"⟩, .shared⟩].foldl after {}) := by
  refine accounted_of_reachable (fun t u ht hu => ?_) (Reachable.start.steps (by decide))
  rcases ht with rfl | rfl <;> rcases hu with rfl | rfl <;> decide

end Locking

end PageDb
