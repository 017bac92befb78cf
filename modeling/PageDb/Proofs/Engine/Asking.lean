import PageDb.Proofs.Engine.Releasing

/-!
Statements that ask for their locks.

`Engine.Asks` is what asking for locks does to an engine, whether they are granted or not.
`Engine.GoesOn` says what becomes of a statement in a move: it comes to its work, or it waits.
-/

namespace PageDb

namespace Engine

/-- Whether a session holds the lock of a table alone. -/
def Owns (e : Engine) (session n : Nat) : Prop :=
  (e.locks.lockOf n).holds .exclusive session = true

/-- One session asks for locks.  Nobody loses a lock that is held alone, and apart from the locks only
the statement of the session has changed. -/
structure Asks (session : Nat) (e e' : Engine) : Prop where
  sound : e'.locks.Sound
  rest : e' = { e with locks := e'.locks, sessions := e'.sessions }
  owns : ∀ s n, e.Owns s n → e'.Owns s n
  clients : ∀ s, (e'.session s).inTransaction = (e.session s).inTransaction ∧
    (e'.session s).database = (e.session s).database
  others : ∀ s, s ≠ session → (e'.session s).running = (e.session s).running

variable {e e' e'' : Engine} {session s n : Nat} {running : Running} {pending : List Table}
  {m : Move} {r : Request}

theorem owns_iff_guards : e.Owns session n ↔ e.Guards session .exclusive n := (or_self_iff).symm

namespace Asks

theorem refl (h : e.locks.Sound) : Asks session e e :=
  ⟨h, rfl, fun _ _ => id, fun _ => ⟨rfl, rfl⟩, fun _ _ => rfl⟩

theorem trans (h : Asks session e e') (h' : Asks session e' e'') : Asks session e e'' where
  sound := h'.sound
  rest := by
    rw [h'.rest, h.rest]
  owns s n howns := h'.owns s n (h.owns s n howns)
  clients s := ⟨(h'.clients s).1.trans (h.clients s).1, (h'.clients s).2.trans (h.clients s).2⟩
  others s hs := (h'.others s hs).trans (h.others s hs)

theorem request (h : e.locks.Sound) (r : Request) :
    Asks r.session e { e with locks := (e.locks.request r).2 } :=
  ⟨(LockManager.serves_request h r).sound, rfl, fun _ _ => LockManager.holds_request h r,
    fun _ => ⟨rfl, rfl⟩, fun _ _ => rfl⟩

theorem retry (h : e.locks.Sound) (r : Request) :
    Asks r.session e { e with locks := (e.locks.retry r).2 } :=
  ⟨(LockManager.serves_retry h r).sound, rfl, fun _ _ => LockManager.holds_retry h r,
    fun _ => ⟨rfl, rfl⟩, fun _ _ => rfl⟩

/-- The statement of the session comes or goes. -/
theorem withRunning (h : e.locks.Sound) (session : Nat) (running : Option Running) :
    Asks session e (e.modifySession session fun s => { s with running := running }) := by
  refine ⟨h, rfl, fun _ _ => id, fun s => ?_, fun s hs => ?_⟩
  · rw [session_modifySession_eq]
    split <;> exact ⟨rfl, rfl⟩
  · rw [session_modifySession _ _ _ _ hs]

end Asks

/-- A statement that gets its locks has asked for them. -/
theorem asks_of_granted (h : e.locks.Sound) (hgranted : granted? session running pending e = some e') :
    Asks session e e' ∧ e'.sessions = e.sessions := by
  induction pending generalizing e with
  | nil =>
    cases hgranted
    exact ⟨.refl h, rfl⟩
  | cons t rest ih =>
    rw [granted?_cons] at hgranted
    split at hgranted
    · have hasks := Asks.request h ⟨session, t.target, running.mode⟩
      obtain ⟨hlater, hsessions⟩ := ih hasks.sound hgranted
      exact ⟨hasks.trans hlater, hsessions⟩
    · cases hgranted

/-- A statement that does not get its locks waits for the first one that it did not get. -/
theorem asks_of_refused (h : e.locks.Sound) {found : Session}
    (hs : e.sessions.get? session = some found)
    (hrefused : granted? session running pending e = none) :
    Asks session e (takeLocks session running pending e).2 ∧
      ∃ rest, ((takeLocks session running pending e).2.session session).running =
        some { running with pending := rest } := by
  induction pending generalizing e with
  | nil => cases hrefused
  | cons t rest ih =>
    have hasks := Asks.request h ⟨session, t.target, running.mode⟩
    rw [granted?_cons] at hrefused
    rw [takeLocks_cons]
    split at hrefused
    · rename_i hgranted
      rw [if_pos hgranted]
      obtain ⟨hlater, hwaits⟩ := ih hasks.sound hs hrefused
      exact ⟨hasks.trans hlater, hwaits⟩
    · rename_i hgranted
      rw [if_neg hgranted]
      refine ⟨hasks.trans (.withRunning hasks.sound session _), rest, ?_⟩
      exact congrArg Session.running (session_modifySession_self { e with locks := _ } _ hs)

/-- What becomes of a statement in a move. -/
inductive GoesOn (e : Engine) (session : Nat) (running : Running) (m : Move) : Prop where
  /-- It has its locks and does its work in the engine that it finds then. -/
  | works (found : Engine) (hwork : e.work? m = some ⟨session, running, found⟩)
      (hasks : Asks session e found) (hnone : (found.session session).running = none)
      (hafter : e.after m = (finish session running found).2)
  | waits (pending : List Table) (hwork : e.work? m = none) (hasks : Asks session e (e.after m))
      (hrunning : ((e.after m).session session).running = some { running with pending := pending })

/-- A statement that is begun does not find its tables, or it goes on. -/
theorem goesOn_execute (h : e.Coherent) (hready : e.ready session = true) (statement : Statement) :
    ((∃ failure, e.tables (e.session session).database (lockPlan statement).1 = .error failure) ∧
        e.work? (.execute session statement) = none ∧ e.after (.execute session statement) = e) ∨
      ∃ tables, e.tables (e.session session).database (lockPlan statement).1 = .ok tables ∧
        e.GoesOn session
          { statement := statement, tables := tables, mode := (lockPlan statement).2, pending := [] }
          (.execute session statement) := by
  obtain ⟨found, hs, -, hnone⟩ := session_of_ready hready
  have hafter : e.after (.execute session statement) = (e.execute session statement).2 := rfl
  rw [execute_eq] at hafter
  cases htables : e.tables (e.session session).database (lockPlan statement).1 with
  | error failure =>
    rw [htables] at hafter
    exact .inl ⟨⟨failure, rfl⟩, by rw [work?, htables], hafter⟩
  | ok tables =>
    rw [htables] at hafter
    refine .inr ⟨tables, rfl, ?_⟩
    cases hgranted : granted? session
        { statement := statement, tables := tables, mode := (lockPlan statement).2, pending := [] }
        tables e with
    | some found =>
      obtain ⟨hasks, hsessions⟩ := asks_of_granted h.locks hgranted
      have hwork : e.work? (.execute session statement) = some ⟨session,
          { statement := statement, tables := tables, mode := (lockPlan statement).2, pending := [] },
          found⟩ := by
        simp only [work?, htables, hgranted, Option.map_some]
      refine .works found hwork hasks ?_ (after_of_work hwork).2
      rw [Engine.session, hsessions, hs]
      exact hnone
    | none =>
      obtain ⟨hasks, rest, hrunning⟩ := asks_of_refused h.locks hs hgranted
      refine .waits rest ?_ (hafter ▸ hasks) (hafter ▸ hrunning)
      simp only [work?, htables, hgranted, Option.map_none]

/-- A statement that waits goes on. -/
theorem goesOn_resume (h : e.Coherent) (hr : r ∈ e.locks.requests) :
    ∃ running, (e.session r.session).running = some running ∧
      e.GoesOn r.session running (.resume r) := by
  obtain ⟨running, table, hrunning, -, -⟩ := h.awaits r hr
  refine ⟨running, hrunning, ?_⟩
  have hafter : e.after (.resume r) = (e.resume r).2 := rfl
  rw [resume_eq] at hafter
  have hretry := Asks.retry h.locks r
  cases hgranted : (e.locks.retry r).1 with
  | false =>
    rw [hgranted] at hafter
    refine .waits running.pending ?_ (hafter ▸ hretry) ?_
    · simp only [work?, hgranted]
    · rw [hafter]
      exact hrunning
  | true =>
    rw [hgranted, hrunning] at hafter
    have hwoken : Asks r.session e (e.woken r) :=
      hretry.trans (.withRunning hretry.sound r.session none)
    obtain ⟨s, hs⟩ := (h.awaits r hr).exists_session
    have hs' : (e.woken r).sessions.get? r.session = some { s with running := none } := by
      rw [woken, modifySession, SortedMap.get?_modify_eq, if_pos rfl, hs]
      rfl
    cases hlater : granted? r.session running running.pending (e.woken r) with
    | some found =>
      obtain ⟨hasks, hsessions⟩ := asks_of_granted hwoken.sound hlater
      have hwork : e.work? (.resume r) = some ⟨r.session, running, found⟩ := by
        simp only [work?, hgranted, hrunning, hlater, Option.map_some]
      refine .works found hwork (hwoken.trans hasks) ?_ (after_of_work hwork).2
      rw [Engine.session, hsessions, hs']
      rfl
    | none =>
      obtain ⟨hasks, rest, hwaits⟩ := asks_of_refused hwoken.sound hs' hlater
      refine .waits rest ?_ (hafter ▸ hwoken.trans hasks) (hafter ▸ hwaits)
      simp only [work?, hgranted, hrunning, hlater, Option.map_none]

/-! ## The work and the release of locks -/

/-- A session that gives back locks takes none from others, and keeps those that it holds in another
way. -/
theorem owns_releaseEach (h : e.locks.Sound) {mode : LockMode} (tables : List Table)
    (hkeeps : s ≠ session ∨ mode = .shared) (howns : e.Owns s n) :
    (e.releaseEach session mode tables).Owns s n := by
  induction tables generalizing e with
  | nil => exact howns
  | cons t rest ih =>
    apply ih (e := (e.release session t mode).2)
    · rw [locks_release]
      exact (LockManager.serves_release h _).sound
    · show ((e.release session t mode).2.locks.account s).holds .exclusive n = true
      rw [locks_release, LockManager.account_release h]
      split
      · rename_i hs
        obtain rfl := hkeeps.resolve_left fun hne => hne hs
        have hheld : (e.locks.account s).holds .exclusive n = true := howns
        simp [LockManager.Account.lose, hheld]
      · exact howns

theorem owns_finish (h : e.locks.Sound)
    (hkeeps : s ≠ session ∨ running.mode = .shared ∨ running.tables = [] ∨
      releasesLocks (e.session session) running.statement = false)
    (howns : e.Owns s n) : (finish session running e).2.Owns s n := by
  have hsame := sameClients_perform e (e.session session) running.statement running.tables
  have hperformed :
      ((perform (e.session session) running.statement running.tables).run e).2.Owns s n := by
    rw [Owns, hsame.locks]
    exact howns
  rw [finish_snd]
  split
  · rename_i hreleases
    have hsound := hsame.locks ▸ h
    rcases hkeeps with hne | hmode | hnone | hkept
    · exact owns_releaseEach hsound _ (.inl hne) hperformed
    · exact owns_releaseEach hsound _ (.inr hmode) hperformed
    · simpa only [releaseEach, hnone, List.foldl_nil] using hperformed
    · rw [hreleases] at hkept
      cases hkept
  · exact hperformed

end Engine

end PageDb
