import PageDb.Lock.Manager
import PageDb.Proofs.Lock.TableLock
import PageDb.Proofs.SortedMap

/-!
What the parts of a lock manager look like after each of its operations.

The parts are the locks by number, the records by session, mode and name, the queues by mode and
name, and the waiters.  Most operations change one part; what they leave alone is settled by `rfl`.
-/

namespace PageDb

@[simp] theorem ByMode.get_modify {α : Type} (b : ByMode α) (mode mode' : LockMode) (f : α → α) :
    (b.modify mode f).get mode' = if mode' = mode then f (b.get mode') else b.get mode' := by
  cases mode <;> cases mode' <;> rfl

namespace LockManager

/-- The target that a session holds under a name, as it is recorded. -/
def recorded? (m : LockManager) (session : Nat) (mode : LockMode) (name : String) : Option Nat :=
  ((m.holdings session).get mode).get? name

/-- The queue that is kept for a target. -/
def queue? (m : LockManager) (mode : LockMode) (name : String) : Option (List Nat) :=
  (m.queues.get mode).get? name

/-- A queue as it is kept: not at all if it is empty. -/
def kept (queue : List Nat) : Option (List Nat) := if queue = [] then none else some queue

/-- The maps of a lock manager are in order. -/
structure Ordered (m : LockManager) : Prop where
  locks : m.locks.Ascending fun _ => True
  queues : ∀ mode, (m.queues.get mode).Ascending fun _ => True
  records : m.records.Ascending fun _ => True
  holdings : ∀ session mode, ((m.holdings session).get mode).Ascending fun _ => True

/-- No session is recorded to hold nothing. -/
def Filled (m : LockManager) : Prop :=
  ∀ session held, m.records.get? session = some held →
    held.shared.isEmpty = false ∨ held.exclusive.isEmpty = false

variable {m : LockManager} {mode : LockMode} {session : Nat}

theorem ordered_empty : ({} : LockManager).Ordered where
  locks := SortedMap.ascending_empty
  queues mode := by cases mode <;> exact SortedMap.ascending_empty
  records := SortedMap.ascending_empty
  holdings _ mode := by cases mode <;> exact SortedMap.ascending_empty

@[simp] theorem getD_kept (queue : List Nat) : (kept queue).getD [] = queue := by
  unfold kept
  split <;> simp_all

/-! ## Locks -/

/-- Puts back the lock of a target. -/
def withLock (m : LockManager) (target : Nat) (lock : TableLock) : LockManager :=
  { m with locks := m.locks.insert target lock }

theorem Ordered.withLock (h : m.Ordered) (target : Nat) (lock : TableLock) :
    (m.withLock target lock).Ordered :=
  ⟨h.locks.insert SortedMap.orderedOn_all trivial lock, h.queues, h.records, h.holdings⟩

theorem lockOf_withLock (h : m.Ordered) (target : Nat) (lock : TableLock) (n : Nat) :
    (m.withLock target lock).lockOf n = if n = target then lock else m.lockOf n := by
  simp only [lockOf, LockManager.withLock, SortedMap.get?_insert_eq h.locks]
  split <;> rfl

theorem ask_eq (m : LockManager) (r : Request) :
    m.ask r = (((m.lockOf r.target.number).acquire r.mode r.session).1,
      m.withLock r.target.number ((m.lockOf r.target.number).acquire r.mode r.session).2) := rfl

theorem lockOf_ask (h : m.Ordered) (r : Request) (n : Nat) :
    (m.ask r).2.lockOf n =
      if n = r.target.number then ((m.lockOf r.target.number).acquire r.mode r.session).2
      else m.lockOf n :=
  lockOf_withLock h _ _ n

theorem lockOf_releaseEach (h : m.Ordered) (hvalid : ∀ n, (m.lockOf n).Valid) (session : Nat)
    (mode : LockMode) (targets : List Nat) :
    (releaseEach session mode targets m).Ordered ∧
      (∀ n, ((releaseEach session mode targets m).lockOf n).Valid) ∧
      ∀ n mode' session', ((releaseEach session mode targets m).lockOf n).holds mode' session' =
        ((m.lockOf n).holds mode' session' &&
          !decide (n ∈ targets ∧ mode' = mode ∧ session' = session)) := by
  induction targets generalizing m with
  | nil => exact ⟨h, hvalid, by simp [releaseEach]⟩
  | cons target rest ih =>
    have hlock := lockOf_withLock h target ((m.lockOf target).release mode session).2
    have hvalid' : ∀ n,
        ((m.withLock target ((m.lockOf target).release mode session).2).lockOf n).Valid := by
      intro n
      rw [hlock]
      split
      · exact (hvalid target).release mode session
      · exact hvalid n
    obtain ⟨hordered, hvalids, hholds⟩ := ih (h.withLock _ _) hvalid'
    refine ⟨hordered, hvalids, fun n mode' session' => (hholds n mode' session').trans ?_⟩
    rw [hlock]
    by_cases htarget : n = target
    · subst htarget
      simp only [if_true, (hvalid n).holds_release, List.mem_cons, true_or, true_and]
      by_cases hself : mode' = mode ∧ session' = session <;> simp [hself]
    · simp [htarget]

/-- Giving targets back touches their locks only. -/
theorem releaseEach_frame (session : Nat) (mode : LockMode) (targets : List Nat) (m : LockManager) :
    (releaseEach session mode targets m).queues = m.queues ∧
      (releaseEach session mode targets m).records = m.records ∧
      (releaseEach session mode targets m).waiters = m.waiters := by
  induction targets generalizing m with
  | nil => exact ⟨rfl, rfl, rfl⟩
  | cons target rest ih => exact ih _

/-- The manager once a session has given back what its record says. -/
def freed (m : LockManager) (session : Nat) (held : Holdings) : LockManager :=
  releaseEach session .shared held.shared.values
    (releaseEach session .exclusive held.exclusive.values m)

theorem freed_frame (m : LockManager) (session : Nat) (held : Holdings) :
    (m.freed session held).queues = m.queues ∧ (m.freed session held).records = m.records ∧
      (m.freed session held).waiters = m.waiters := by
  obtain ⟨hqueues, hrecords, hwaiters⟩ :=
    releaseEach_frame session .exclusive held.exclusive.values m
  obtain ⟨hqueues', hrecords', hwaiters'⟩ := releaseEach_frame session .shared held.shared.values
    (releaseEach session .exclusive held.exclusive.values m)
  exact ⟨hqueues'.trans hqueues, hrecords'.trans hrecords, hwaiters'.trans hwaiters⟩

theorem lockOf_freed (h : m.Ordered) (hvalid : ∀ n, (m.lockOf n).Valid) (session : Nat)
    (held : Holdings) :
    (m.freed session held).Ordered ∧ (∀ n, ((m.freed session held).lockOf n).Valid) ∧
      ∀ n mode session', ((m.freed session held).lockOf n).holds mode session' =
        ((m.lockOf n).holds mode session' &&
          !decide (n ∈ (held.get mode).values ∧ session' = session)) := by
  obtain ⟨hordered, hvalids, hholds⟩ :=
    lockOf_releaseEach h hvalid session .exclusive held.exclusive.values
  obtain ⟨hordered', hvalids', hholds'⟩ :=
    lockOf_releaseEach hordered hvalids session .shared held.shared.values
  refine ⟨hordered', hvalids', fun n mode session' => ?_⟩
  rw [freed, hholds', hholds]
  cases mode with
  | shared => by_cases hn : n ∈ held.shared.values <;> simp [ByMode.get, hn]
  | exclusive => by_cases hn : n ∈ held.exclusive.values <;> simp [ByMode.get, hn]

/-! ## Records -/

/-- Puts back the record of a session. -/
def withRecord (m : LockManager) (session : Nat) (held : Holdings) : LockManager :=
  { m with records := m.records.insert session held }

/-- Drops the record of a session. -/
def withoutRecord (m : LockManager) (session : Nat) : LockManager :=
  { m with records := m.records.erase session }

theorem holdings_withRecord (h : m.Ordered) (session : Nat) (held : Holdings) (session' : Nat) :
    (m.withRecord session held).holdings session' =
      if session' = session then held else m.holdings session' := by
  simp only [holdings, withRecord, SortedMap.get?_insert_eq h.records]
  split <;> rfl

theorem holdings_withoutRecord (h : m.Ordered) (session session' : Nat) :
    (m.withoutRecord session).holdings session' =
      if session' = session then ⟨∅, ∅⟩ else m.holdings session' := by
  simp only [holdings, withoutRecord, SortedMap.get?_erase_eq h.records]
  split <;> rfl

theorem Ordered.withRecord (h : m.Ordered) {held : Holdings}
    (hheld : ∀ mode, (held.get mode).Ascending fun _ => True) (session : Nat) :
    (m.withRecord session held).Ordered := by
  refine ⟨h.locks, h.queues, h.records.insert SortedMap.orderedOn_all trivial held, ?_⟩
  intro session' mode
  rw [holdings_withRecord h]
  split
  · exact hheld mode
  · exact h.holdings session' mode

theorem Ordered.withoutRecord (h : m.Ordered) (session : Nat) : (m.withoutRecord session).Ordered := by
  refine ⟨h.locks, h.queues, h.records.erase session, ?_⟩
  intro session' mode
  rw [holdings_withoutRecord h]
  split
  · cases mode <;> exact SortedMap.ascending_empty
  · exact h.holdings session' mode

theorem Filled.withRecord (h : m.Filled) (hm : m.Ordered) {held : Holdings}
    (hheld : held.shared.isEmpty = false ∨ held.exclusive.isEmpty = false) (session : Nat) :
    (m.withRecord session held).Filled := by
  intro session' held' hget
  simp only [LockManager.withRecord, SortedMap.get?_insert_eq hm.records] at hget
  split at hget
  · cases hget
    exact hheld
  · exact h session' held' hget

theorem Filled.withoutRecord (h : m.Filled) (hm : m.Ordered) (session : Nat) :
    (m.withoutRecord session).Filled := by
  intro session' held' hget
  simp only [LockManager.withoutRecord, SortedMap.get?_erase_eq hm.records] at hget
  split at hget
  · cases hget
  · exact h session' held' hget

/-- The holdings of a session once it has got a lock. -/
def granted (held : Holdings) (r : Request) : Holdings :=
  match r.mode with
  | .shared => { held with shared := held.shared.insert r.target.name r.target.number }
  | .exclusive =>
    { shared := held.shared.erase r.target.name
      exclusive := held.exclusive.insert r.target.name r.target.number }

theorem record_eq (m : LockManager) (r : Request) (outcome : LockOutcome) :
    m.record r outcome =
      if outcome = .acquired ∨ outcome = .upgraded then
        m.withRecord r.session (granted (m.holdings r.session) r)
      else m := rfl

/-- Recording a lock touches records only. -/
theorem record_frame (m : LockManager) (r : Request) (outcome : LockOutcome) :
    (m.record r outcome).locks = m.locks ∧ (m.record r outcome).queues = m.queues ∧
      (m.record r outcome).waiters = m.waiters := by
  rw [record_eq]
  split <;> exact ⟨rfl, rfl, rfl⟩

theorem get?_granted {held : Holdings} (h : ∀ mode, (held.get mode).Ascending fun _ => True)
    (r : Request) (mode : LockMode) (name : String) :
    ((granted held r).get mode).get? name =
      if name = r.target.name then
        if mode = r.mode then some r.target.number
        else if r.mode = .exclusive then none
        else (held.get mode).get? name
      else (held.get mode).get? name := by
  have hshared : held.shared.Ascending fun _ => True := h .shared
  have hexclusive : held.exclusive.Ascending fun _ => True := h .exclusive
  obtain ⟨session, target, asked⟩ := r
  cases asked with
  | shared => cases mode <;> simp [granted, ByMode.get, SortedMap.get?_insert_eq hshared]
  | exclusive =>
    cases mode <;> simp [granted, ByMode.get, SortedMap.get?_insert_eq hexclusive,
      SortedMap.get?_erase_eq hshared]

theorem ascending_granted {held : Holdings} (h : ∀ mode, (held.get mode).Ascending fun _ => True)
    (r : Request) (mode : LockMode) : ((granted held r).get mode).Ascending fun _ => True := by
  obtain ⟨session, target, asked⟩ := r
  cases asked <;> cases mode
  · exact (h .shared).insert SortedMap.orderedOn_all trivial _
  · exact h .exclusive
  · exact (h .shared).erase _
  · exact (h .exclusive).insert SortedMap.orderedOn_all trivial _

theorem recorded?_record (h : m.Ordered) {r : Request} {outcome : LockOutcome}
    (hnew : outcome = .acquired ∨ outcome = .upgraded) (session : Nat) (mode : LockMode)
    (name : String) :
    (m.record r outcome).recorded? session mode name =
      if session = r.session ∧ name = r.target.name then
        if mode = r.mode then some r.target.number
        else if r.mode = .exclusive then none
        else m.recorded? session mode name
      else m.recorded? session mode name := by
  rw [record_eq, if_pos hnew, recorded?, recorded?, holdings_withRecord h]
  by_cases hsession : session = r.session
  · simp only [hsession, if_true, true_and, get?_granted (h.holdings r.session)]
  · simp [hsession]

theorem Ordered.record (h : m.Ordered) (r : Request) (outcome : LockOutcome) :
    (m.record r outcome).Ordered := by
  rw [record_eq]
  split
  · exact h.withRecord (ascending_granted (h.holdings r.session) r) r.session
  · exact h

theorem Filled.record (h : m.Filled) (hm : m.Ordered) (r : Request) (outcome : LockOutcome) :
    (m.record r outcome).Filled := by
  rw [record_eq]
  split
  case isFalse => exact h
  refine h.withRecord hm ?_ r.session
  have hget := get?_granted (hm.holdings r.session) r r.mode r.target.name
  simp only [if_true] at hget
  cases hmode : r.mode <;> rw [hmode] at hget
  · exact .inl (SortedMap.isEmpty_eq_false_of_get? hget)
  · exact .inr (SortedMap.isEmpty_eq_false_of_get? hget)

/-- The holdings of a session once a lock is struck from them. -/
def struck (held : Holdings) (name : String) (mode : LockMode) : Holdings :=
  held.modify mode fun names => names.erase name

theorem get?_struck {held : Holdings} (h : ∀ mode, (held.get mode).Ascending fun _ => True)
    (name : String) (mode mode' : LockMode) (name' : String) :
    ((struck held name mode).get mode').get? name' =
      if mode' = mode ∧ name' = name then none else (held.get mode').get? name' := by
  rw [struck, ByMode.get_modify]
  by_cases hmode : mode' = mode
  · simp only [hmode, if_true, true_and, SortedMap.get?_erase_eq (h mode)]
  · simp [hmode]

theorem forget_eq (m : LockManager) (session : Nat) (name : String) (mode : LockMode) :
    m.forget session name mode =
      match m.records.get? session with
      | none => m
      | some held =>
        if (struck held name mode).shared.isEmpty && (struck held name mode).exclusive.isEmpty then
          m.withoutRecord session
        else m.withRecord session (struck held name mode) := rfl

/-- Striking a lock touches records only. -/
theorem forget_frame (m : LockManager) (session : Nat) (name : String) (mode : LockMode) :
    (m.forget session name mode).locks = m.locks ∧
      (m.forget session name mode).queues = m.queues ∧
      (m.forget session name mode).waiters = m.waiters := by
  rw [forget_eq]
  cases m.records.get? session with
  | none => exact ⟨rfl, rfl, rfl⟩
  | some held =>
    dsimp only
    split <;> exact ⟨rfl, rfl, rfl⟩

theorem recorded?_forget (h : m.Ordered) (session : Nat) (name : String) (mode : LockMode)
    (session' : Nat) (mode' : LockMode) (name' : String) :
    (m.forget session name mode).recorded? session' mode' name' =
      if session' = session ∧ mode' = mode ∧ name' = name then none
      else m.recorded? session' mode' name' := by
  rw [forget_eq]
  cases hget : m.records.get? session with
  | none =>
    have hheld : m.holdings session = ⟨∅, ∅⟩ := by rw [holdings, hget]; rfl
    dsimp only
    split
    · rename_i heq
      rw [recorded?, heq.1, hheld]
      cases mode' <;> rfl
    · rfl
  | some held =>
    have hheld : m.holdings session = held := by rw [holdings, hget]; rfl
    have hless := get?_struck (hheld ▸ h.holdings session) name mode mode' name'
    simp only [recorded?] at hless ⊢
    by_cases hsession : session' = session
    · subst hsession
      simp only [true_and, hheld, ← hless]
      split
      · rename_i hempty
        rw [Bool.and_eq_true] at hempty
        rw [holdings_withoutRecord h, if_pos rfl]
        cases mode'
        · exact (SortedMap.get?_eq_none_of_isEmpty hempty.1 name').symm
        · exact (SortedMap.get?_eq_none_of_isEmpty hempty.2 name').symm
      · rw [holdings_withRecord h, if_pos rfl]
    · simp only [hsession, false_and, if_false]
      split
      · rw [holdings_withoutRecord h, if_neg hsession]
      · rw [holdings_withRecord h, if_neg hsession]

theorem Ordered.forget (h : m.Ordered) (session : Nat) (name : String) (mode : LockMode) :
    (m.forget session name mode).Ordered := by
  rw [forget_eq]
  cases hget : m.records.get? session with
  | none => exact h
  | some held =>
    have hheld : m.holdings session = held := by rw [LockManager.holdings, hget]; rfl
    have hascending := hheld ▸ h.holdings session
    dsimp only
    split
    · exact h.withoutRecord session
    · refine h.withRecord (fun mode' => ?_) session
      rw [struck, ByMode.get_modify]
      split
      · exact (hascending mode').erase name
      · exact hascending mode'

theorem Filled.forget (h : m.Filled) (hm : m.Ordered) (session : Nat) (name : String)
    (mode : LockMode) : (m.forget session name mode).Filled := by
  rw [forget_eq]
  cases m.records.get? session with
  | none => exact h
  | some held =>
    dsimp only
    split
    · exact h.withoutRecord hm session
    · rename_i hsome
      exact h.withRecord hm (Bool.and_eq_false_iff.1 (Bool.eq_false_iff.2 hsome)) session

/-! ## Queues -/

theorem queue_eq (m : LockManager) (name : String) (mode : LockMode) :
    m.queue name mode = (m.queue? mode name).getD [] := rfl

theorem queue?_enqueue (h : m.Ordered) (r : Request) (mode : LockMode) (name : String) :
    (m.enqueue r).queue? mode name =
      if mode = r.mode ∧ name = r.target.name then some (m.queue name mode ++ [r.session])
      else m.queue? mode name := by
  rw [queue?, queue?, enqueue, ByMode.get_modify]
  by_cases hmode : mode = r.mode
  · subst hmode
    simp only [if_true, true_and, SortedMap.get?_insert_eq (h.queues r.mode)]
    split
    · rename_i hname
      rw [hname]
    · rfl
  · simp [hmode]

theorem Ordered.enqueue (h : m.Ordered) (r : Request) : (m.enqueue r).Ordered := by
  refine ⟨h.locks, fun mode => ?_, h.records, h.holdings⟩
  rw [LockManager.enqueue, ByMode.get_modify]
  split
  · exact (h.queues mode).insert SortedMap.orderedOn_all trivial _
  · exact h.queues mode

theorem queue?_dequeue (h : m.Ordered) (r : Request) (mode : LockMode) (name : String) :
    (m.dequeue r).queue? mode name =
      if mode = r.mode ∧ name = r.target.name then
        (m.queue? mode name).bind fun queue => kept (queue.filter fun session => session ≠ r.session)
      else m.queue? mode name := by
  rw [queue?, queue?, dequeue, ByMode.get_modify]
  by_cases hmode : mode = r.mode
  case neg => simp [hmode]
  subst hmode
  simp only [if_true, true_and]
  cases hqueue : (m.queues.get r.mode).get? r.target.name with
  | none =>
    dsimp only
    split
    · rename_i hname
      rw [hname, hqueue]
      rfl
    · rfl
  | some queue =>
    dsimp only
    simp only [kept, List.isEmpty_iff]
    by_cases hrest : queue.filter (fun session => session ≠ r.session) = []
    · rw [if_pos hrest, SortedMap.get?_erase_eq (h.queues r.mode)]
      split
      · rename_i hname
        rw [hname, hqueue, Option.bind_some, if_pos hrest]
      · rfl
    · rw [if_neg hrest, SortedMap.get?_insert_eq (h.queues r.mode)]
      split
      · rename_i hname
        rw [hname, hqueue, Option.bind_some, if_neg hrest]
      · rfl

theorem Ordered.dequeue (h : m.Ordered) (r : Request) : (m.dequeue r).Ordered := by
  refine ⟨h.locks, fun mode => ?_, h.records, h.holdings⟩
  rw [LockManager.dequeue, ByMode.get_modify]
  split
  · split
    · exact h.queues mode
    · dsimp only
      split
      · exact (h.queues mode).erase _
      · exact (h.queues mode).insert SortedMap.orderedOn_all trivial _
  · exact h.queues mode

/-- A session that is in no queue leaves them as they are, if none of them is empty. -/
theorem leaveQueues_eq_self (h : m.Ordered)
    (hqueues : ∀ mode name queue, m.queue? mode name = some queue → queue ≠ [] ∧ session ∉ queue) :
    m.leaveQueues session = m := by
  have hkeep (mode : LockMode) :
      ((m.queues.get mode).mapValues fun queue => queue.filter fun s => s ≠ session).toList.filter
        (fun b => ¬ b.2.isEmpty) = (m.queues.get mode).toList := by
    have hall : ∀ b ∈ (m.queues.get mode).toList, b.2 ≠ [] ∧ session ∉ b.2 := fun b hb =>
      hqueues mode b.1 b.2 ((SortedMap.mem_toList_iff (h.queues mode)).1 hb)
    have hsame : ((m.queues.get mode).mapValues fun queue => queue.filter fun s => s ≠ session).toList =
        (m.queues.get mode).toList := by
      refine (List.map_congr_left fun b hb => ?_).trans (List.map_id _)
      have hfilter : b.2.filter (fun s => s ≠ session) = b.2 :=
        List.filter_eq_self.2 fun s hs => decide_eq_true fun heq => (hall b hb).2 (heq ▸ hs)
      simp only [hfilter, id]
    rw [hsame]
    refine List.filter_eq_self.2 fun b hb => ?_
    simpa [List.isEmpty_iff] using (hall b hb).1
  have hshared := congrArg SortedMap.mk (hkeep .shared)
  have hexclusive := congrArg SortedMap.mk (hkeep .exclusive)
  show ({ m with queues := ⟨_, _⟩ } : LockManager) = m
  exact congrArg (fun queues => { m with queues := queues })
    (congr (congrArg ByMode.mk hshared) hexclusive)

/-! ## Waiters -/

/-- A signal changes nobody's request. -/
theorem map_request_signal (m : LockManager) :
    m.signal.waiters.map Waiter.request = m.waiters.map Waiter.request := by
  rw [signal, List.map_map]
  rfl

theorem map_request_lull (m : LockManager) (r : Request) :
    (m.lull r).waiters.map Waiter.request = m.waiters.map Waiter.request := by
  rw [lull, List.map_map]
  refine List.map_congr_left fun w _ => ?_
  simp only [Function.comp_apply]
  split <;> rfl

theorem map_request_withdraw (m : LockManager) (r : Request) :
    (m.withdraw r).waiters.map Waiter.request = (m.waiters.map Waiter.request).erase r := by
  have htest : (fun w : Waiter => decide (w.request = r)) = (fun x => r == x) ∘ Waiter.request :=
    funext fun w => decide_eq_decide.2 eq_comm
  rw [List.erase_eq_eraseP, List.eraseP_map, ← htest]
  rfl

/-! ## Whole calls -/

theorem isGranted_eq_false_iff {outcome : LockOutcome} :
    outcome.isGranted = false ↔ outcome = .wouldBlock := by
  cases outcome <;> simp [LockOutcome.isGranted]

theorem request_eq (m : LockManager) (r : Request) :
    m.request r =
      if (m.ask r).1.isGranted then (true, (m.ask r).2.record r (m.ask r).1)
      else (false, { (m.ask r).2.enqueue r with waiters := m.waiters ++ [{ request := r }] }) := rfl

theorem retry_eq (m : LockManager) (r : Request) :
    m.retry r =
      if m.isOldest r then
        if (m.ask r).1.isGranted then
          (true, ((((m.dequeue r).ask r).2.record r (m.ask r).1).withdraw r).signal)
        else (false, (m.ask r).2.lull r)
      else (false, m.lull r) := rfl

/-- The manager after a release, before anyone is woken. -/
def givenBack (m : LockManager) (r : Request) : LockManager :=
  (m.withLock r.target.number
    ((m.lockOf r.target.number).release r.mode r.session).2).forget r.session r.target.name r.mode

theorem release_eq (m : LockManager) (r : Request) :
    m.release r =
      (((m.lockOf r.target.number).release r.mode r.session).1,
        if ((m.lockOf r.target.number).release r.mode r.session).1 then (m.givenBack r).signal
        else m.givenBack r) := rfl

theorem releaseAll_eq (m : LockManager) (session : Nat) :
    m.releaseAll session =
      match (m.leaveQueues session).records.get? session with
      | none => ([], m.leaveQueues session)
      | some held => (held.exclusive.values ++ held.shared.values,
          (((m.leaveQueues session).withoutRecord session).freed session held).signal) := rfl

end LockManager

end PageDb
