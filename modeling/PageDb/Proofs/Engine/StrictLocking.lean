import PageDb.Proofs.Engine.Pinning

/-!
Strict two-phase locking.

`Engine.Steadfast` is what every move keeps: pages are pinned in owned tables only, and as long as no
two tables share page files all pages in the logs are pinned.  With `Engine.Disciplined`, which says
the same of the locks, it follows for everything that sessions do with tables that stay.
-/

namespace PageDb

namespace Engine

/-- Pages are pinned in guarded tables only and, unless tables share page files, the tables are neat
and the pages in the logs are pinned. -/
structure Steadfast (j : Journal) (e : Engine) : Prop where
  guarded : e.space.Pins (fun _ _ => False) e.Guarded
  neat : Table.AllApart e.allTables → e.space.Neat e.allTables
  pinned : Table.AllApart e.allTables →
    ∀ s n page, (n, page) ∈ (j s).pages → e.space.Pinned n page

variable {config : Config} {disk : Disk} {e e' : Engine} {j j' : Journal} {m : Move} {r : Request}
  {session s n page : Nat} {running : Running} {t : Table} {statement : Statement}
  {names : Nat → Option String}

/-! ## Moves that leave the tables alone -/

/-- Nothing has changed for the pages, whoever owned a table owns it, and no log has grown. -/
theorem Steadfast.of_same (h : e.Steadfast j) (hspace : e'.space = e.space)
    (hguarded : ∀ n, e.Guarded n → e'.Guarded n) (htables : ∀ t, t ∈ e'.allTables ↔ t ∈ e.allTables)
    (hlogs : ∀ s, (j' s).pages ⊆ (j s).pages) : e'.Steadfast j' := by
  have hbefore (hapart : Table.AllApart e'.allTables) : Table.AllApart e.allTables :=
    hapart.mono fun t ht => (htables t).2 ht
  refine ⟨?_, fun hapart => ?_, fun hapart s n page hpage => ?_⟩
  · rw [hspace]
    exact h.guarded.mono (fun _ _ => id) fun n page hpinned =>
      hguarded n (h.guarded.may_of_pinned hpinned)
  · have hneat := h.neat (hbefore hapart)
    rw [hspace]
    exact ⟨hneat.orderly.mono fun t ht => (htables t).1 ht, hneat.ordered⟩
  · rw [hspace]
    exact h.pinned (hbefore hapart) s n page (hlogs s hpage)

theorem Asks.guarded (h : Asks session e e') (hguarded : e.Guarded n) : e'.Guarded n := by
  obtain ⟨s, hin, howns⟩ := hguarded
  exact ⟨s, (h.clients s).1.trans hin, h.owns s n howns⟩

theorem Asks.filed (h : Asks session e e') (hfiled : e.Filed names) : e'.Filed names := by
  rw [h.rest]
  exact ⟨hfiled.databases, hfiled.tables, hfiled.found, hfiled.fresh⟩

theorem Asks.allTables_eq (h : Asks session e e') : e'.allTables = e.allTables := by
  rw [h.rest]
  rfl

/-- Asking for locks leaves all pages where they are. -/
theorem Steadfast.asks (h : e.Steadfast j) (hasks : Asks session e e')
    (hlogs : ∀ s, (j' s).pages ⊆ (j s).pages) : e'.Steadfast j' := by
  apply h.of_same _ (fun n => hasks.guarded) (fun t => by rw [hasks.allTables_eq]) hlogs
  rw [hasks.rest]

/-! ## Statements -/

/-- The work of a statement keeps the pages of all logs pinned, and pins those that it touches. -/
theorem Steadfast.finish (h : e.Steadfast j) (hsound : e.locks.Sound) (hfiled : e.Filed names)
    (hunderway : e.Underway session running []) (hprepared : e.Prepared j' session running)
    (hlogged : ∀ s n page, (n, page) ∈ (j s).pages →
      (e.session s).inTransaction = true ∧ e.Owns s n ∧ ∃ t ∈ e.allTables, t.number = n)
    (hnew : ∀ s n page, (n, page) ∈ (j' s).pages → (n, page) ∈ (j s).pages ∨
      s = session ∧ (e.session session).inTransaction = true ∧ writes running.statement = true ∧
        (n, page) ∈ Work.touched ⟨session, running, e⟩) :
    (Engine.finish session running e).2.Steadfast j' := by
  have hkeeps := hprepared.keeps
  have hfound (t : Table) (ht : t ∈ running.tables) : t ∈ e.allTables :=
    hfiled.mem_allTables_iff.2 ⟨_, hprepared.found t ht⟩
  have howned (hin : (e.session session).inTransaction = true)
      (hwrites : writes running.statement = true) (t : Table) (ht : t ∈ running.tables) :
      e.Guarded t.number := ⟨session, hin, owns_of_underway hunderway hwrites ht⟩
  have hbefore (hapart : Table.AllApart (Engine.finish session running e).2.allTables) :
      Table.AllApart e.allTables := hapart.mono (allTables_finish_subset hfiled hkeeps session)
  refine ⟨guarded_finish hsound h.guarded hkeeps howned,
    fun hapart => neat_finish (h.neat (hbefore hapart)) hfiled hkeeps hfound hapart,
    fun hapart s n page hpage => ?_⟩
  have hneat := h.neat (hbefore hapart)
  rcases hnew s n page hpage with hold | ⟨rfl, hin, hwrites, htouched⟩
  -- the table is owned by the session of the log, which gives it back only outside a transaction
  · obtain ⟨hin, howns, t, ht, rfl⟩ := hlogged s n page hold
    apply pinned_finish hneat hsound h.guarded hfiled hkeeps howned _ ht howns
      (h.pinned (hbefore hapart) s _ page hold)
    by_cases hs : s = session
    · subst hs
      exact .inr (hprepared.releases_none _ hin)
    · exact .inl hs
  · -- a write in a transaction gives back no lock
    obtain ⟨t, htables⟩ := List.length_eq_one_iff.1 (hprepared.length_of_writes hwrites)
    have ht : t ∈ running.tables := htables ▸ List.mem_cons_self
    have hpinned := Work.pinned_touched (w := ⟨s, running, e⟩) hneat h.guarded hin htables
      (hfound t ht) (howned hin hwrites t ht) hwrites htouched
    rw [finish_snd, releasesLocks_eq, hwrites, hin]
    exact hpinned

theorem Steadfast.goesOn (h : e.Steadfast j) (hdisciplined : e.Disciplined j) (hm : e.Allows m)
    (hgoes : e.GoesOn session running m) (hprepared : e.Prepared (j.after e m) session running) :
    (e.after m).Steadfast (j.after e m) := by
  obtain ⟨names, hledger⟩ := hdisciplined.ledger
  have hpages (s n page : Nat) (hpage : (n, page) ∈ (j.after e m s).pages) :=
    hgoes.mem_pages_after hpage
  cases hgoes with
  | waits pending hwork hasks hrunning =>
    -- a statement that waits has touched nothing yet
    refine h.asks hasks fun s => ?_
    rintro ⟨n, page⟩ hpage
    rcases hpages s n page hpage with hold | ⟨-, -, -, found, hfound, -⟩
    · exact hold
    · cases hwork.symm.trans hfound
  | works found hwork hasks hnone hafter =>
    -- first it asks for its locks, then it does its work
    have hclient := hasks.clients session
    have hfiled := hasks.filed hledger.filed
    rw [hafter]
    refine (h.asks hasks fun _ => List.Subset.refl _).finish hasks.sound hfiled
      (hdisciplined.coherent.underway_of_work hm hwork)
      (hprepared.mono hasks.grows hclient.2 hclient.1 fun _ => id)
      (fun s n page hpage => ?_) fun s n page hpage => ?_
    · obtain ⟨hn, howns⟩ := hdisciplined.pages s n page hpage
      obtain ⟨t, ht, hnumber⟩ := hdisciplined.found s n hn
      exact ⟨(hasks.clients s).1.trans (hdisciplined.inTransaction s n hn), hasks.owns s n howns,
        t, hfiled.mem_allTables_iff.2 ⟨_, hasks.grows.finds ht⟩, hnumber⟩
    · refine (hpages s n page hpage).imp_right ?_
      rintro ⟨rfl, hin, hwrites, found', hfound, htouched⟩
      obtain rfl : found = found' := by
        have hsame := Option.some.inj (hwork.symm.trans hfound)
        exact congrArg Work.engine hsame
      exact ⟨rfl, hclient.1.trans hin, hwrites, htouched⟩

theorem Steadfast.execute (h : e.Steadfast j) (hdisciplined : e.Disciplined j)
    (hready : e.ready session = true) (hkeeps : keepsTables statement) :
    (e.after (.execute session statement)).Steadfast (j.after e (.execute session statement)) := by
  rcases goesOn_execute hdisciplined.coherent hready statement with
    ⟨⟨failure, htables⟩, -, hafter⟩ | ⟨tables, htables, hgoes⟩
  · rw [hafter, j.after_execute_error htables]
    exact h
  · exact h.goesOn hdisciplined hready hgoes (prepared_execute htables hkeeps)

theorem Steadfast.resume (h : e.Steadfast j) (hdisciplined : e.Disciplined j)
    (hr : e.Allows (.resume r)) : (e.after (.resume r)).Steadfast (j.after e (.resume r)) := by
  obtain ⟨running, hrunning, hgoes⟩ := goesOn_resume hdisciplined.coherent hr
  apply h.goesOn hdisciplined hr hgoes
  apply (hdisciplined.waits r.session running hrunning).mono (.refl e) rfl rfl
  intro n hn
  simpa [Journal.after, Move.ends, named] using hn

/-! ## Moves that are no statements -/

theorem Journal.pages_after_subset (j : Journal) (hwork : e.work? m = none) (s : Nat) :
    (j.after e m s).pages ⊆ (j s).pages := by
  rw [Journal.after]
  split
  · exact List.nil_subset _
  · simp [touched, hwork]

theorem Steadfast.createDatabase (h : e.Steadfast j) (hdisciplined : e.Disciplined j) (name : String) :
    (e.after (.createDatabase name)).Steadfast (j.after e (.createDatabase name)) := by
  obtain ⟨names, hledger⟩ := hdisciplined.ledger
  have hfiled := hledger.filed
  have hsame : (e.createDatabase name).space = e.space ∧
      (e.createDatabase name).Guarded = e.Guarded := by
    rw [Engine.createDatabase]
    split <;> exact ⟨rfl, rfl⟩
  apply h.of_same hsame.1 (fun n hn => hsame.2 ▸ hn) _ (j.pages_after_subset rfl)
  intro t
  refine ⟨fun ht => ?_, fun ht => ?_⟩
  · obtain ⟨d, key, hkey⟩ := (hfiled.createDatabase name).mem_allTables_iff.1 ht
    refine hfiled.mem_allTables_iff.2 ⟨d, key, ?_⟩
    rw [Engine.createDatabase] at hkey
    split at hkey
    · exact hkey
    rw [database, SortedMap.get?_insert_eq hfiled.databases] at hkey
    split at hkey
    · cases hkey
    · exact hkey
  · exact (grows_createDatabase hfiled.databases hdisciplined.fresh name).allTables_subset hfiled
      (hfiled.createDatabase name) ht

theorem Steadfast.connect (h : e.Steadfast j) (hdisciplined : e.Disciplined j) (name : String) :
    (e.after (.connect name)).Steadfast (j.after e (.connect name)) := by
  have hclients := session_connect hdisciplined.coherent name
  have hsame : ((Engine.connect name).run e).2.space = e.space ∧
      ((Engine.connect name).run e).2.locks = e.locks ∧
      ((Engine.connect name).run e).2.databases = e.databases := by
    rw [run_connect]
    cases e.databaseNumber name <;> exact ⟨rfl, rfl, rfl⟩
  obtain ⟨hspace, hlocks, hdatabases⟩ := hsame
  refine h.of_same hspace (fun n => ?_) (fun t => ?_) (j.pages_after_subset rfl)
  · rintro ⟨s, hin, howns⟩
    refine ⟨s, (hclients s).2.trans hin, ?_⟩
    rw [after, Owns, hlocks]
    exact howns
  · rw [after, allTables_congr hdatabases]

theorem Steadfast.beginTransaction (h : e.Steadfast j) (session : Nat) :
    (e.after (.beginTransaction session)).Steadfast (j.after e (.beginTransaction session)) := by
  refine h.of_same rfl ?_ (fun _ => Iff.rfl) (j.pages_after_subset rfl)
  rintro n ⟨s, hin, howns⟩
  refine ⟨s, ?_, howns⟩
  rw [after, Engine.beginTransaction, session_modifySession_eq]
  split
  · rfl
  · exact hin

/-- A session gives everything back and its log ends. -/
theorem Steadfast.releaseAll (h : e.Steadfast j) (hdisciplined : e.Disciplined j)
    (hspace : e'.space = (e.releaseAll session).space)
    (hlocks : e'.locks = (e.releaseAll session).locks) (hdatabases : e'.databases = e.databases)
    (hothers : ∀ s, s ≠ session → e'.session s = e.session s)
    (hlogs : ∀ s, (j' s).pages ⊆ (j s).pages) (hends : (j' session).pages = []) :
    e'.Steadfast j' := by
  obtain ⟨names, hledger⟩ := hdisciplined.ledger
  have hpins := pins_releaseAll hledger h.guarded session
  have htables : e'.allTables = e.allTables := allTables_congr hdatabases
  refine ⟨?_, fun hapart => ?_, fun hapart s n page hpage => ?_⟩
  · rw [hspace]
    refine hpins.mono (fun _ _ => id) fun n page hpinned => ?_
    obtain ⟨s, hs, hin, howns⟩ := hpins.may_of_pinned hpinned
    refine ⟨s, ?_, ?_⟩
    · rw [hothers s hs]
      exact hin
    · rw [Owns, hlocks]
      exact howns
  · rw [htables] at hapart ⊢
    rw [hspace]
    exact neat_unpinEach (h.neat hapart)
  · rw [htables] at hapart
    -- only the logs of other sessions have pages left
    have hs : s ≠ session := by
      rintro rfl
      rw [hends] at hpage
      cases hpage
    have hold := hlogs s hpage
    rw [hspace]
    exact pinned_releaseAll hledger hs (hdisciplined.pages s n page hold).2
      (h.pinned hapart s n page hold)

theorem Steadfast.commit (h : e.Steadfast j) (hdisciplined : e.Disciplined j) (session : Nat) :
    (e.after (.commit session)).Steadfast (j.after e (.commit session)) := by
  refine h.releaseAll hdisciplined rfl rfl rfl (fun s hs => ?_) (j.pages_after_subset rfl) ?_
  · exact session_modifySession (e.releaseAll session) _ _ _ hs
  · rw [Journal.after_of_ends j e (by simp [Move.ends])]

theorem Steadfast.disconnect (h : e.Steadfast j) (hdisciplined : e.Disciplined j) (session : Nat) :
    (e.after (.disconnect session)).Steadfast (j.after e (.disconnect session)) := by
  refine h.releaseAll hdisciplined rfl rfl rfl (fun s hs => ?_) (j.pages_after_subset rfl) ?_
  · exact (session_disconnect hdisciplined.coherent session s).trans (if_neg hs)
  · rw [Journal.after_of_ends j e (by simp [Move.ends])]

theorem Steadfast.after (h : e.Steadfast j) (hdisciplined : e.Disciplined j) (hm : e.Allows m)
    (htables : m.KeepsTables) : (e.after m).Steadfast (j.after e m) := by
  cases m with
  | createDatabase name => exact h.createDatabase hdisciplined name
  | connect database => exact h.connect hdisciplined database
  | beginTransaction session => exact h.beginTransaction session
  | commit session => exact h.commit hdisciplined session
  | disconnect session => exact h.disconnect hdisciplined session
  | execute session statement => exact h.execute hdisciplined hm htables
  | resume r => exact h.resume hdisciplined hm

theorem steadfast_start (config : Config) (hdisk : disk.directory.Ordered) :
    (Engine.start config disk).Steadfast fun _ => {} := by
  refine ⟨⟨fun n store hstore => ?_, fun _ _ => False.elim⟩,
    fun _ => ⟨Tablespace.orderly_nil _, ?_⟩, fun _ _ _ _ hpage => ?_⟩
  · cases hstore
  · exact hdisk.restored
  · cases hpage

theorem Logged.steadfast (hdisk : disk.directory.Ordered) (h : Logged config disk e j) :
    e.Steadfast j := by
  induction h with
  | start => exact steadfast_start config hdisk
  | move hbefore hm htables ih => exact ih.after hbefore.disciplined hm htables

/-- Strict two-phase locking and pinning.  Whatever the sessions do and in whatever order, a session
between two statements holds the exclusive locks of the tables that it named for writing since its
transaction began, and no others; pages are pinned only in tables that a session in a transaction
holds alone; and as long as no two tables share page files, all pages that a session touched in its
transaction are in memory and pinned. -/
theorem strict_two_phase (hdisk : disk.directory.Ordered) (h : Logged config disk e j) :
    (∀ s, (e.session s).running = none → ∀ mode n, (e.locks.lockOf n).holds mode s = true ↔
      (e.session s).inTransaction = true ∧ mode = .exclusive ∧ n ∈ (j s).tables) ∧
    (∀ n page, e.space.Pinned n page → ∃ s, (e.session s).inTransaction = true ∧
      (e.locks.lockOf n).holds .exclusive s = true) ∧
    (Table.AllApart e.allTables →
      ∀ s n page, (n, page) ∈ (j s).pages → e.space.Pinned n page) := by
  have hdisciplined := h.disciplined
  have hsteadfast := h.steadfast hdisk
  refine ⟨fun s hnone mode n => ?_, fun n page => hsteadfast.guarded.may_of_pinned, hsteadfast.pinned⟩
  rw [hdisciplined.holds_iff hnone]
  refine ⟨fun hn => ⟨?_, hn⟩, And.right⟩
  exact hdisciplined.inTransaction s n hn.2

/-! ## Runs -/

/-- The logs after moves. -/
def logAll : Engine → Journal → List Move → Journal
  | _, j, [] => j
  | e, j, m :: rest => logAll (e.after m) (j.after e m) rest

theorem Logged.moves (h : Logged config disk e j) {moves : List Move}
    (hmoves : e.allowsAll moves = true) (htables : ∀ m ∈ moves, m.KeepsTables) :
    Logged config disk (moves.foldl after e) (e.logAll j moves) := by
  induction moves generalizing e j with
  | nil => exact h
  | cons m rest ih =>
    rw [allowsAll, Bool.and_eq_true, decide_eq_true_iff] at hmoves
    obtain ⟨hm, hrest⟩ := List.forall_mem_cons.1 htables
    exact ih (.move h hmoves.1 hm) hmoves.2 hrest

/-- Two sessions use one table.  The first one adds a row in a transaction, and the second one waits to
add another. -/
def queueing : List Move :=
  [.createDatabase "shop", .connect "shop", .connect "shop",
    .execute 1 (.createTable "items" (keysOnly "id")),
    .beginTransaction 1, .execute 1 (.insert "items" none [["7"]]),
    .execute 2 (.insert "items" none [["8"]])]

/-- The engine after that. -/
def queued : Engine := queueing.foldl after (.start {} {})

/-- Until it commits the first session holds the lock of the table and nothing else, and the page of the
row is pinned. -/
theorem strict_two_phase_queued :
    Logged {} {} queued ((Engine.start {} {}).logAll (fun _ => {}) queueing) ∧
      (∀ mode n, (queued.locks.lockOf n).holds mode 1 = true ↔ mode = .exclusive ∧ n = 1) ∧
      queued.space.Pinned 1 1 ∧
      ∃ s, (queued.session s).inTransaction = true ∧
        (queued.locks.lockOf 1).holds .exclusive s = true := by
  have hlogged : Logged {} {} queued ((Engine.start {} {}).logAll (fun _ => {}) queueing) :=
    Logged.start.moves (by decide +kernel) (by decide +kernel)
  obtain ⟨hlocks, howners, hpages⟩ := strict_two_phase Directory.ordered_empty hlogged
  obtain ⟨t, ht⟩ : ∃ t, queued.allTables = [t] := List.length_eq_one_iff.1 (by decide +kernel)
  have hapart : Table.AllApart queued.allTables := by
    rw [ht]
    simp [Table.AllApart]
  have hpinned := hpages hapart 1 1 1 (by decide +kernel)
  refine ⟨hlogged, fun mode n => ?_, hpinned, howners 1 1 hpinned⟩
  have hin : (queued.session 1).inTransaction = true := by decide +kernel
  have htables : ((Engine.start {} {}).logAll (fun _ => {}) queueing 1).tables = [1] := by decide +kernel
  rw [hlocks 1 (by decide +kernel), hin, htables]
  simp

/-- Reading the row of a key. -/
def readingKey (table : String) (key : Int) : Statement :=
  .select [table] none [] (some (.compare ⟨.column "k", .eq, .number (.ofInt .double key)⟩))

/-- Two tables whose page files have the same names, with one page of each in memory.  The second table
has written its rows over those of the first, and when that one reads its key 9 it finds a page without
it, which stays in memory. -/
def overwriting : List Move :=
  [.createDatabase "x#_#y", .createDatabase "x", .connect "x#_#y", .connect "x",
    .execute 1 (.createTable "z" (keysOnly "k")), .execute 2 (.createTable "y#_#z" (keysOnly "k")),
    .execute 1 (.insert "z" none [["1"], ["2"], ["9"]]), .execute 1 (readingKey "z" 1),
    .execute 2 (.insert "y#_#z" none [["5"], ["6"], ["2"]]), .execute 2 (readingKey "y#_#z" 5),
    .execute 1 (readingKey "z" 9), .beginTransaction 1]

/-- The engine after that. -/
def overwritten : Engine := overwriting.foldl after (.start { budget := 2, cap := 1 } {})

/-- In a transaction a row is added to that page, which pins it. -/
def extended : Engine := overwritten.after (.execute 1 (.insert "z" none [["3"]]))

/-- Reading the key 9 once more reads the page again, and puts it in the place of the one that is
pinned. -/
theorem not_pinned_of_shared_files :
    (overwritten.work? (.execute 1 (.insert "z" none [["3"]]))).map (fun w => (w.run w.engine).1) =
        some (.ok (.count 1)) ∧
      extended.space.Pinned 1 2 ∧
      ∃ j, Logged { budget := 2, cap := 1 } {} (extended.after (.execute 1 (readingKey "z" 9))) j ∧
        (1, 2) ∈ (j 1).pages ∧
        ((extended.after (.execute 1 (readingKey "z" 9))).session 1).inTransaction = true ∧
        ¬ (extended.after (.execute 1 (readingKey "z" 9))).space.Pinned 1 2 := by
  have hrun : Engine.allowsAll (.start { budget := 2, cap := 1 } {}) overwriting = true ∧
      overwritten.Allows (.execute 1 (.insert "z" none [["3"]])) ∧
      extended.Allows (.execute 1 (readingKey "z" 9)) ∧
      (overwritten.work? (.execute 1 (.insert "z" none [["3"]]))).map (fun w => (w.run w.engine).1) =
        some (.ok (.count 1)) ∧
      extended.space.Pinned 1 2 := by decide +kernel
  obtain ⟨hmoves, hinsert, hread, hanswer, hpinned⟩ := hrun
  have hextended : Logged { budget := 2, cap := 1 } {} extended _ :=
    .move (Logged.start.moves hmoves (by decide +kernel)) hinsert trivial
  have hlogged := hextended.move (m := .execute 1 (readingKey "z" 9)) hread trivial
  exact ⟨hanswer, hpinned, _, hlogged, by decide +kernel⟩

end Engine

end PageDb
