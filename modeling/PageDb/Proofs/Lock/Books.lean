import PageDb.Proofs.Lock.Bookkeeping

/-!
The books of a lock manager: locks and records agree.

A session's record says under which names it holds targets; a target's lock says which sessions hold
it.  `LockManager.Books` says that the two never differ, as long as no two targets share a name.
-/

namespace PageDb

/-- Each target has a name of its own. -/
def Target.Distinct (all : Target → Prop) : Prop :=
  ∀ t u, all t → all u → (t.number = u.number ↔ t.name = u.name)

theorem Target.Distinct.number_eq {all : Target → Prop} (hall : Target.Distinct all) {t : Target}
    {n : Nat} (hn : all ⟨n, t.name⟩) (ht : all t) : n = t.number :=
  (hall _ _ hn ht).2 rfl

theorem Target.Distinct.name_eq {all : Target → Prop} (hall : Target.Distinct all) {t : Target}
    {name : String} (hn : all ⟨t.number, name⟩) (ht : all t) : name = t.name :=
  (hall _ _ hn ht).1 rfl

namespace LockManager

/-- Locks and records agree on who holds what. -/
structure Books (all : Target → Prop) (m : LockManager) : Prop where
  ordered : m.Ordered
  filled : m.Filled
  valid : ∀ n, (m.lockOf n).Valid
  known : ∀ n mode session, (m.lockOf n).holds mode session = true → ∃ name, all ⟨n, name⟩
  recorded : ∀ session mode name n, m.recorded? session mode name = some n ↔
    all ⟨n, name⟩ ∧ (m.lockOf n).holds mode session = true

variable {all : Target → Prop} {m : LockManager}

theorem books_empty (all : Target → Prop) : ({} : LockManager).Books all where
  ordered := ordered_empty
  filled _ _ h := by cases h
  valid _ := .free
  known _ mode _ h := by cases mode <;> cases h
  recorded _ mode _ _ := by
    refine ⟨fun h => ?_, fun h => ?_⟩
    · cases mode <;> cases h
    · cases mode <;> cases h.2

namespace Books

/-- Queues and waiters are not in the books. -/
theorem of_same (h : m.Books all) {m' : LockManager} (hordered : m'.Ordered)
    (hlocks : m'.locks = m.locks) (hrecords : m'.records = m.records) : m'.Books all := by
  obtain ⟨locks, queues, records, waiters⟩ := m'
  dsimp only at hlocks hrecords
  subst hlocks hrecords
  exact ⟨hordered, h.filled, h.valid, h.known, h.recorded⟩

theorem withWaiters (h : m.Books all) (waiters : List Waiter) :
    ({ m with waiters := waiters } : LockManager).Books all :=
  h.of_same ⟨h.ordered.locks, h.ordered.queues, h.ordered.records, h.ordered.holdings⟩ rfl rfl

theorem enqueue (h : m.Books all) (r : Request) : (m.enqueue r).Books all :=
  h.of_same (h.ordered.enqueue r) rfl rfl

theorem dequeue (h : m.Books all) (r : Request) : (m.dequeue r).Books all :=
  h.of_same (h.ordered.dequeue r) rfl rfl

/-- What is recorded of a target can be read off its lock. -/
theorem recorded?_eq (h : m.Books all) (hall : Target.Distinct all) {t : Target} (ht : all t)
    (session : Nat) (mode : LockMode) :
    m.recorded? session mode t.name =
      if (m.lockOf t.number).holds mode session = true then some t.number else none := by
  split
  · rename_i hholds
    exact (h.recorded session mode t.name t.number).2 ⟨ht, hholds⟩
  · rename_i hnot
    refine Option.eq_none_iff_forall_not_mem.2 fun n hn => hnot ?_
    obtain ⟨hn, hholds⟩ := (h.recorded session mode t.name n).1 hn
    exact hall.number_eq hn ht ▸ hholds

/-- The books are kept when one session's hold on one target changes, in the lock and in the record
alike. -/
theorem update (h : m.Books all) (hall : Target.Distinct all) {t : Target} (ht : all t)
    (session : Nat) (now : LockMode → Bool) {m' : LockManager} (hordered : m'.Ordered)
    (hfilled : m'.Filled) (hvalid : ∀ n, (m'.lockOf n).Valid)
    (hholds : ∀ n mode s, (m'.lockOf n).holds mode s =
      if n = t.number ∧ s = session then now mode else (m.lockOf n).holds mode s)
    (hrecorded : ∀ s mode name, m'.recorded? s mode name =
      if s = session ∧ name = t.name then if now mode = true then some t.number else none
      else m.recorded? s mode name) : m'.Books all := by
  refine ⟨hordered, hfilled, hvalid, ?_, ?_⟩
  · intro n mode s hn
    rw [hholds] at hn
    split at hn
    · rename_i heq
      exact ⟨t.name, heq.1 ▸ ht⟩
    · exact h.known n mode s hn
  intro s mode name n
  rw [hrecorded, hholds]
  by_cases hs : s = session
  case neg => simp only [hs, false_and, and_false, if_false, h.recorded]
  by_cases hname : name = t.name
  · subst hname
    simp only [hs, and_self, if_true, and_true]
    constructor
    · intro hsome
      split at hsome
      · rename_i hnow
        obtain rfl : t.number = n := by simpa using hsome
        exact ⟨ht, by rw [if_pos rfl, hnow]⟩
      · cases hsome
    · rintro ⟨hn, hnow⟩
      obtain rfl : n = t.number := hall.number_eq hn ht
      rw [if_pos rfl] at hnow
      rw [if_pos hnow]
  · simp only [hname, and_false, if_false, h.recorded]
    refine and_congr_right fun hn => ?_
    rw [if_neg]
    rintro ⟨rfl, -⟩
    exact hname (hall.name_eq hn ht)

/-- Asking for a lock and recording the answer keeps the books. -/
theorem ask (h : m.Books all) (hall : Target.Distinct all) {r : Request} (hr : all r.target) :
    ((m.ask r).2.record r (m.ask r).1).Books all := by
  obtain ⟨l, hl⟩ : ∃ l, l = m.lockOf r.target.number := ⟨_, rfl⟩
  have hvalid : l.Valid := hl ▸ h.valid r.target.number
  have hordered := h.ordered.withLock r.target.number (l.acquire r.mode r.session).2
  have hfilled : (m.withLock r.target.number (l.acquire r.mode r.session).2).Filled := h.filled
  have hlock := lockOf_withLock h.ordered r.target.number (l.acquire r.mode r.session).2
  rw [ask_eq, ← hl]
  dsimp only
  by_cases hnew : (l.acquire r.mode r.session).1 = .acquired ∨
      (l.acquire r.mode r.session).1 = .upgraded
  case neg =>
    -- the lock is put back as it was
    have hsame (n : Nat) :
        (m.withLock r.target.number (l.acquire r.mode r.session).2).lockOf n = m.lockOf n := by
      rw [hlock, hvalid.acquire_eq_self hnew, hl]
      split
      · rename_i hn
        rw [hn]
      · rfl
    rw [record_eq, if_neg hnew]
    refine ⟨hordered, hfilled, ?_, ?_, ?_⟩ <;> simp only [hsame]
    · exact h.valid
    · exact h.known
    · exact h.recorded
  have hlocks (n : Nat) : ((m.withLock r.target.number (l.acquire r.mode r.session).2).record r
      (l.acquire r.mode r.session).1).lockOf n =
        if n = r.target.number then (l.acquire r.mode r.session).2 else m.lockOf n := by
    rw [← hlock, lockOf, (record_frame _ _ _).1]
    rfl
  refine h.update hall hr r.session (fun mode => decide (mode = r.mode)) (hordered.record r _)
    (hfilled.record hordered r _) (fun n => ?_) (fun n mode s => ?_) fun s mode name => ?_
  · rw [hlocks]
    split
    · exact hvalid.acquire _ _
    · exact h.valid n
  · rw [hlocks]
    by_cases hn : n = r.target.number
    · simp only [hn, if_true, true_and, hvalid.holds_acquire hnew, ← hl]
    · simp only [hn, if_false, false_and]
  · rw [recorded?_record hordered hnew]
    by_cases hsame : s = r.session ∧ name = r.target.name
    case neg =>
      rw [if_neg hsame, if_neg hsame]
      rfl
    rw [if_pos hsame, if_pos hsame]
    by_cases hmode : mode = r.mode
    · simp [hmode]
    · simp only [hmode, if_false, decide_false, Bool.false_eq_true]
      split
      · rfl
      · rename_i hshared
        -- the other mode is the exclusive one, which the session did not hold
        obtain rfl : mode = .exclusive := by
          cases mode <;> cases hr' : r.mode <;> simp_all
        show m.recorded? s .exclusive name = none
        rw [hsame.1, hsame.2, h.recorded?_eq hall hr, ← hl, hvalid.not_holds_of_new hnew]
        rfl

/-- A request that is refused keeps the books. -/
theorem ask_refused (h : m.Books all) (hall : Target.Distinct all) {r : Request} (hr : all r.target)
    (hrefused : (m.ask r).1 = .wouldBlock) : (m.ask r).2.Books all := by
  have hbooks := h.ask hall hr
  rw [hrefused] at hbooks
  exact hbooks

/-- A release keeps the books. -/
theorem givenBack (h : m.Books all) (hall : Target.Distinct all) {r : Request} (hr : all r.target) :
    (m.givenBack r).Books all := by
  obtain ⟨l, hl⟩ : ∃ l, l = m.lockOf r.target.number := ⟨_, rfl⟩
  have hvalid : l.Valid := hl ▸ h.valid r.target.number
  have hordered := h.ordered.withLock r.target.number (l.release r.mode r.session).2
  have hfilled : (m.withLock r.target.number (l.release r.mode r.session).2).Filled := h.filled
  rw [LockManager.givenBack, ← hl]
  have hlock (n : Nat) : ((m.withLock r.target.number (l.release r.mode r.session).2).forget r.session
      r.target.name r.mode).lockOf n =
        if n = r.target.number then (l.release r.mode r.session).2 else m.lockOf n := by
    rw [← lockOf_withLock h.ordered, lockOf, (forget_frame _ _ _ _).1]
    rfl
  refine h.update hall hr r.session (fun mode => l.holds mode r.session && !decide (mode = r.mode))
    (hordered.forget _ _ _) (hfilled.forget hordered _ _ _)
    (fun n => ?_) (fun n mode s => ?_) fun s mode name => ?_
  · rw [hlock]
    split
    · exact hvalid.release _ _
    · exact h.valid n
  · rw [hlock]
    by_cases hn : n = r.target.number
    · rw [if_pos hn, hvalid.holds_release, hn, ← hl]
      by_cases hs : s = r.session <;> simp [hs]
    · simp only [hn, if_false, false_and]
  · rw [recorded?_forget hordered]
    by_cases hsame : s = r.session ∧ name = r.target.name
    · rw [if_pos hsame, hsame.1, hsame.2]
      by_cases hmode : mode = r.mode
      · simp [hmode]
      · have hrecorded := h.recorded?_eq hall hr r.session mode
        rw [← hl] at hrecorded
        simp only [hmode, false_and, and_false, if_false, decide_false, Bool.not_false,
          Bool.and_true, ← hrecorded]
        rfl
    · rw [if_neg hsame, if_neg fun heq => hsame ⟨heq.1, heq.2.2⟩]
      rfl

/-- Giving everything back keeps the books. -/
theorem releaseAll (h : m.Books all) {session : Nat} (hqueues : m.leaveQueues session = m) :
    (m.releaseAll session).2.Books all := by
  rw [releaseAll_eq, hqueues]
  cases hget : m.records.get? session with
  | none => exact h
  | some held =>
    have hheld : m.holdings session = held := by rw [LockManager.holdings, hget]; rfl
    obtain ⟨hordered, hvalid, hholds⟩ :=
      lockOf_freed (h.ordered.withoutRecord session) h.valid session held
    have hrecords : ((m.withoutRecord session).freed session held).records =
        (m.withoutRecord session).records := (freed_frame _ _ _).2.1
    -- a lock that is held is recorded, so it is among those given back
    have hgone (n : Nat) (mode : LockMode) (name : String) (hn : all ⟨n, name⟩) :
        (((m.withoutRecord session).freed session held).lockOf n).holds mode session = false := by
      rw [hholds]
      cases hheldOld : (m.lockOf n).holds mode session with
      | false => exact Bool.and_eq_false_iff.2 (.inl hheldOld)
      | true =>
        have hrecorded := (h.recorded session mode name n).2 ⟨hn, hheldOld⟩
        rw [recorded?, hheld] at hrecorded
        have hmem : n ∈ (held.get mode).values := List.mem_map.2 ⟨(name, n),
          (SortedMap.mem_toList_iff (hheld ▸ h.ordered.holdings session mode)).2 hrecorded, rfl⟩
        simp [hmem]
    refine withWaiters ⟨hordered, fun s held' hs => ?_, hvalid, fun n mode s hn => ?_,
      fun s mode name n => ?_⟩ _
    · rw [hrecords] at hs
      exact h.filled.withoutRecord h.ordered session s held' hs
    · rw [hholds, Bool.and_eq_true] at hn
      exact h.known n mode s hn.1
    · rw [recorded?, LockManager.holdings, hrecords]
      show (((m.withoutRecord session).holdings s).get mode).get? name = some n ↔ _
      rw [holdings_withoutRecord h.ordered]
      by_cases hs : s = session
      · subst hs
        rw [if_pos rfl]
        constructor
        · intro hnone
          cases mode <;> cases hnone
        · rintro ⟨hn, hnow⟩
          rw [hgone n mode name hn] at hnow
          cases hnow
      · rw [if_neg hs, hholds]
        simp only [hs, and_false, decide_false, Bool.not_false, Bool.and_true]
        exact h.recorded s mode name n

end Books

end LockManager

end PageDb
