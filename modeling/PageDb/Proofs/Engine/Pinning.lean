import PageDb.Proofs.Engine.Keeping

/-!
Pages that stay in memory.

Pages are pinned in tables that a session in a transaction owns, and nowhere else: a statement that
writes in a transaction owns its table, and giving back a lock unpins the table.  As long as no two
tables share page files, a page that is pinned stays so in the work of every statement, and when the
locks of other tables are given back.
-/

namespace PageDb

open PageDb.Action (Keeps Same)

namespace Tablespace

/-- Orderly tables on a disk whose directory is in order. -/
structure Neat (tables : List Table) (s : Tablespace) : Prop where
  orderly : Orderly tables s
  ordered : s.disk.directory.Ordered

variable {tables : List Table} {t : Table} {s : Tablespace}

theorem steady_neat (ht : t ∈ tables) (hproper : t.schema.Proper) : t.Steady (Neat tables) where
  proper := hproper
  stands h := h.orderly.stands t ht
  binds h := h.orderly.binds t ht
  advances h hadvances :=
    ⟨(steady_orderly ht hproper).advances h.orderly hadvances, hadvances.stands.ordered⟩

end Tablespace

namespace Engine

/-- The tables of all databases. -/
def allTables (e : Engine) : List Table :=
  e.databases.values.flatMap fun d => d.tables.values

/-- Whether a session in a transaction owns the lock of a table. -/
def Guarded (e : Engine) (n : Nat) : Prop :=
  ∃ s, (e.session s).inTransaction = true ∧ e.Owns s n

variable {config : Config} {disk : Disk} {e e' : Engine} {j : Journal} {m : Move} {r : Request}
  {session s n page : Nat} {running : Running} {t : Table} {statement : Statement}
  {names names' : Nat → Option String}

/-! ## The tables of all databases -/

theorem Filed.mem_allTables_iff (h : e.Filed names) : t ∈ e.allTables ↔ ∃ d, e.Finds d t := by
  simp only [allTables, List.mem_flatMap, SortedMap.mem_values_iff h.databases]
  constructor
  · rintro ⟨database, ⟨d, hd⟩, ht⟩
    have hdatabase : e.database d = database := by
      rw [Engine.database, hd]
      rfl
    obtain ⟨name, hname⟩ := (SortedMap.mem_values_iff (hdatabase ▸ h.tables d)).1 ht
    exact ⟨d, name, hdatabase ▸ hname⟩
  · rintro ⟨d, name, hname⟩
    cases hd : e.databases.get? d with
    | none =>
      rw [Engine.database, hd] at hname
      cases hname
    | some database =>
      have hdatabase : e.database d = database := by
        rw [Engine.database, hd]
        rfl
      refine ⟨database, ⟨d, hd⟩, (SortedMap.mem_values_iff (hdatabase ▸ h.tables d)).2 ⟨name, ?_⟩⟩
      exact hdatabase ▸ hname

theorem Grows.allTables_subset (h : e.Grows e') (hfiled : e.Filed names)
    {names' : Nat → Option String} (hfiled' : e'.Filed names') : e.allTables ⊆ e'.allTables := by
  intro t ht
  obtain ⟨d, hd⟩ := hfiled.mem_allTables_iff.1 ht
  exact hfiled'.mem_allTables_iff.2 ⟨d, h.finds hd⟩

/-- No table has the number that the next one will get. -/
theorem Filed.number_ne (h : e.Filed names) (ht : t ∈ e.allTables) : t.number ≠ e.nextTable := by
  obtain ⟨d, name, hname⟩ := h.mem_allTables_iff.1 ht
  intro heq
  have hnumber := (h.found d name t hname).2.2
  rw [heq, h.fresh _ (Nat.le_refl _)] at hnumber
  cases hnumber

theorem allTables_congr (h : e'.databases = e.databases) : e'.allTables = e.allTables := by
  rw [allTables, h, allTables]

/-- Making a table fails, or adds one that is empty and has a number of its own. -/
theorem createTable_cases (hfiled : e.Filed names) (d : Nat) (name : String) (schema : Schema) :
    ((createTable d name schema).run e).2 = e ∨
      ∃ made : Table, made.schema = schema ∧ made.number = e.nextTable ∧
        ((createTable d name schema).run e).2.space = e.space.create e.config made ∧
        ∀ d' u, ((createTable d name schema).run e).2.Finds d' u → u = made ∨ e.Finds d' u := by
  rw [run_createTable]
  split
  · exact .inl rfl
  let made : Table := ⟨e.nextTable, (e.database d).name, name, schema⟩
  refine .inr ⟨made, rfl, rfl, rfl, ?_⟩
  rintro d' u ⟨key, hkey⟩
  obtain ⟨-, hsame | ⟨rfl, hinserted⟩⟩ := database_withTables e d
    ((e.database d).tables.insert name made) d'
  · exact .inr ⟨key, (congrArg (fun tables => tables.get? key) hsame).symm.trans hkey⟩
  · have hget := (congrArg (fun tables => tables.get? key) hinserted).symm.trans hkey
    rw [SortedMap.get?_insert_eq (hfiled.tables d')] at hget
    split at hget
    · exact .inl (Option.some.inj hget).symm
    · exact .inr ⟨key, hget⟩

/-- A table that a statement makes comes to the others. -/
theorem neat_createTable (h : e.space.Neat e.allTables) (hfiled : e.Filed names) {d : Nat}
    {name : String} {schema : Schema} (hproper : schema.Proper)
    (hafter : ((createTable d name schema).run e).2 = e') (hfiled' : e'.Filed names')
    (hgrows : e.Grows e') (hapart : Table.AllApart e'.allTables) : e'.space.Neat e'.allTables := by
  have hsubset := hgrows.allTables_subset hfiled hfiled'
  rcases createTable_cases hfiled d name schema with hsame | ⟨made, rfl, hmade, hspace, hfinds⟩
  · rw [← hafter, hsame]
    exact h
  rw [hafter] at hspace hfinds
  have hnumber (u : Table) (hu : u ∈ e.allTables) : made.number ≠ u.number :=
    hmade ▸ (hfiled.number_ne hu).symm
  have hmem (u : Table) (hu : u ∈ e'.allTables) : u = made ∨ u ∈ e.allTables := by
    obtain ⟨d', hd'⟩ := hfiled'.mem_allTables_iff.1 hu
    exact (hfinds d' u hd').imp_right fun hold => hfiled.mem_allTables_iff.2 ⟨d', hold⟩
  refine ⟨?_, hspace ▸ h.ordered⟩
  rw [hspace]
  -- unless the new table is listed nothing is known of its page files, nor need it be
  by_cases hin : made ∈ e'.allTables
  · refine (h.orderly.create h.ordered hproper (fun u hu => ?_) e.config).mono fun u hu => ?_
    · have hne : made ≠ u := fun heq => hnumber u hu (congrArg Table.number heq)
      exact ⟨(hapart made hin u (hsubset hu)).resolve_left hne,
        (hapart u (hsubset hu) made hin).resolve_left hne.symm⟩
    · exact List.mem_cons.2 (hmem u hu)
  · refine (h.orderly.beside hnumber e.config).mono fun u hu => (hmem u hu).resolve_left ?_
    rintro rfl
    exact hin hu

/-- The work of a statement keeps the tables neat. -/
theorem neat_perform (h : e.space.Neat e.allTables) (hfiled : e.Filed names)
    (hkeeps : keepsTables statement) (client : Session) {tables : List Table}
    (hfound : ∀ t ∈ tables, t ∈ e.allTables)
    (hafter : ((perform client statement tables).run e).2 = e') (hfiled' : e'.Filed names')
    (hapart : Table.AllApart e'.allTables) : e'.space.Neat e'.allTables := by
  have hgrows := grows_perform hkeeps e hfiled.tables client tables
  rw [hafter] at hgrows
  have hsteady (t : Table) (ht : t ∈ e.allTables) := Tablespace.steady_neat ht (h.orderly.proper t ht)
  have hrest (hstatement : altersCatalog statement = false)
      (hspace : ((perform client statement tables).run e).2.space.Neat e.allTables) :
      e'.space.Neat e'.allTables := by
    obtain ⟨space, hsame⟩ := perform_eq_withSpace hstatement e client tables
    rw [← hafter]
    rw [hsame] at hspace ⊢
    exact hspace
  have hwrite (hwrites : writes statement = true) :
      ((perform client statement tables).run e).2.space.Neat e.allTables :=
    keeps_write hwrites (fun t ht => (hsteady t (hfound t ht)).workKeeps _) h
  cases statement with
  | dropTable => cases hkeeps
  | createTable name schema =>
    simp only [perform, Action.run_bind_pure] at hafter
    exact neat_createTable h hfiled hkeeps hafter hfiled' hgrows hapart
  | select names on selectors filter =>
    refine hrest rfl (keeps_select (Tablespace.readsRespect_of_steady hsteady) ?_ on selectors filter h)
    intro found hlist t ht
    obtain ⟨name, -, hname⟩ := exists_found hlist ht
    exact hfiled.mem_allTables_iff.2 ⟨_, name, hname⟩
  | _ => exact hrest rfl (hwrite rfl)

/-! ## Giving back locks -/

theorem space_release (e : Engine) (session : Nat) (t : Table) (mode : LockMode) :
    (e.release session t mode).2.space =
      if (e.locks.account session).holds mode t.number then e.space.unpin t.number else e.space := by
  have hreleased := LockManager.release_fst e.locks ⟨session, t.target, mode⟩
  have hnumber : t.target.number = t.number := rfl
  rw [← hnumber, ← hreleased]
  simp only [release]
  split <;> rfl

theorem sound_release (h : e.locks.Sound) (session : Nat) (t : Table) (mode : LockMode) :
    (e.release session t mode).2.locks.Sound := by
  rw [locks_release]
  exact (LockManager.serves_release h _).sound

/-- Giving back locks unpins nothing in a table that another session owns. -/
theorem pinned_releaseEach (h : e.locks.Sound) {mode : LockMode} (tables : List Table)
    (hkeeps : s ≠ session ∨ mode = .shared) (howns : e.Owns s n) (hpinned : e.space.Pinned n page) :
    (e.releaseEach session mode tables).space.Pinned n page := by
  induction tables generalizing e with
  | nil => exact hpinned
  | cons t rest ih =>
    refine ih (e := (e.release session t mode).2) (sound_release h session t mode)
      (owns_releaseEach h [t] hkeeps howns) ?_
    rw [space_release]
    split
    · rename_i hheld
      refine hpinned.unpin fun heq => ?_
      subst heq
      obtain ⟨hs, hmode⟩ := (h.valid t.number).sole howns hheld
      rcases hkeeps with hne | hshared
      · exact hne hs.symm
      · cases hmode.symm.trans hshared
    · exact hpinned

theorem neat_releaseEach {tables : List Table} (h : e.space.Neat tables) (session : Nat)
    (mode : LockMode) (given : List Table) : (e.releaseEach session mode given).space.Neat tables := by
  induction given generalizing e with
  | nil => exact h
  | cons t rest ih =>
    refine ih (e := (e.release session t mode).2) ?_
    rw [space_release]
    split
    · exact ⟨h.orderly.unpin t.number, h.ordered⟩
    · exact h

/-- A session that gives back a lock unpins the table, so only tables that are owned have pins. -/
theorem guarded_release (h : e.locks.Sound) (hpins : e.space.Pins (fun _ _ => False) e.Guarded)
    (session : Nat) (t : Table) (mode : LockMode) :
    (e.release session t mode).2.space.Pins (fun _ _ => False)
      (e.release session t mode).2.Guarded := by
  -- whoever owns another table, or one that is not given back, owns it still
  have hstill (k : Nat) (hk : k ≠ t.number ∨ (e.locks.account session).holds mode t.number = false)
      (hguarded : e.Guarded k) : (e.release session t mode).2.Guarded k := by
    obtain ⟨s, hin, howns⟩ := hguarded
    refine ⟨s, ?_, ?_⟩
    · rw [Engine.session, sessions_release]
      exact hin
    · show ((e.release session t mode).2.locks.account s).holds .exclusive k = true
      rw [locks_release, LockManager.account_release h]
      split
      · rename_i hs
        subst hs
        have hheld : (e.locks.account s).holds .exclusive k = true := howns
        have hnot : ¬ (k = t.target.number ∧ LockMode.exclusive = mode) := by
          rintro ⟨rfl, rfl⟩
          rcases hk with hk | hk
          · exact hk rfl
          · cases hk.symm.trans hheld
        simp only [LockManager.Account.lose, hheld, hnot, decide_false, Bool.not_false, Bool.and_true]
      · exact howns
  rw [space_release]
  split
  · have hunpinned := hpins.unpin t.number
    refine hunpinned.mono (fun _ _ => False.elim) fun k page hpinned => ?_
    obtain ⟨hne, hguarded⟩ := hunpinned.may_of_pinned hpinned
    exact hstill k (.inl hne) hguarded
  · rename_i hnot
    rw [Bool.not_eq_true] at hnot
    exact hpins.mono (fun _ _ => False.elim) fun k page hpinned =>
      hstill k (.inr hnot) (hpins.may_of_pinned hpinned)

theorem guarded_releaseEach (h : e.locks.Sound)
    (hpins : e.space.Pins (fun _ _ => False) e.Guarded) (session : Nat) (mode : LockMode)
    (tables : List Table) :
    (e.releaseEach session mode tables).space.Pins (fun _ _ => False)
      (e.releaseEach session mode tables).Guarded := by
  induction tables generalizing e with
  | nil => exact hpins
  | cons t rest ih =>
    exact ih (e := (e.release session t mode).2) (sound_release h session t mode)
      (guarded_release h hpins session t mode)

/-- Giving back everything unpins the tables that are recorded, and no others. -/
theorem pins_unpinEach {may : Nat → Prop} {space : Tablespace}
    (h : space.Pins (fun _ _ => False) may) (numbers : List Nat) :
    (numbers.foldl Tablespace.unpin space).Pins (fun _ _ => False) fun n => n ∉ numbers ∧ may n := by
  induction numbers generalizing space may with
  | nil => exact h.mono (fun _ _ => id) fun n page hpinned => ⟨List.not_mem_nil, h.may_of_pinned hpinned⟩
  | cons k rest ih =>
    have hfirst : (space.unpin k).Pins (fun _ _ => False) fun n => n ≠ k ∧ may n :=
      (h.unpin k).mono (fun _ _ => False.elim) fun n page hpinned => (h.unpin k).may_of_pinned hpinned
    have hlater := ih hfirst
    refine hlater.mono (fun _ _ => id) fun n page hpinned => ?_
    obtain ⟨hrest, hne, hmay⟩ := hlater.may_of_pinned hpinned
    exact ⟨List.not_mem_cons_of_ne_of_not_mem hne hrest, hmay⟩

theorem pinned_unpinEach {numbers : List Nat} {space : Tablespace} (hn : n ∉ numbers)
    (h : space.Pinned n page) : (numbers.foldl Tablespace.unpin space).Pinned n page := by
  induction numbers generalizing space with
  | nil => exact h
  | cons k rest ih =>
    obtain ⟨hne, hrest⟩ := List.ne_and_not_mem_of_not_mem_cons hn
    exact ih hrest (h.unpin hne)

theorem neat_unpinEach {numbers : List Nat} {tables : List Table} {space : Tablespace}
    (h : space.Neat tables) : (numbers.foldl Tablespace.unpin space).Neat tables := by
  induction numbers generalizing space with
  | nil => exact h
  | cons k rest ih => exact ih ⟨h.orderly.unpin k, h.ordered⟩

section

variable {kept : Nat → Nat → Prop} (h : e.Ledger names kept)

include h

/-- A session that gives everything back unpins what it held, so the pins that are left are in tables
that others own. -/
theorem pins_releaseAll (hpins : e.space.Pins (fun _ _ => False) e.Guarded) (session : Nat) :
    (e.releaseAll session).space.Pins (fun _ _ => False) fun n =>
      ∃ s, s ≠ session ∧ (e.session s).inTransaction = true ∧ (e.releaseAll session).Owns s n := by
  have hunpinned := pins_unpinEach hpins (e.locks.releaseAll session).1
  apply hunpinned.mono fun _ _ => id
  intro n page hpinned
  obtain ⟨hkept, s, hin, howns⟩ := hunpinned.may_of_pinned hpinned
  have hs : s ≠ session := by
    rintro rfl
    -- every lock that the session held is recorded
    exact hkept ((LockManager.mem_releaseAll_iff h.sound.ordered s n).2
      ⟨.exclusive, ((h.fits s).held .exclusive n).1 howns⟩)
  exact ⟨s, hs, hin, owns_releaseAll h.sound hs howns⟩

/-- A session that gives everything back unpins nothing in a table that another one owns. -/
theorem pinned_releaseAll (hs : s ≠ session) (howns : e.Owns s n) (hpinned : e.space.Pinned n page) :
    (e.releaseAll session).space.Pinned n page := by
  refine pinned_unpinEach (fun hn => ?_) hpinned
  obtain ⟨mode, hrecorded⟩ := (LockManager.mem_releaseAll_iff h.sound.ordered session n).1 hn
  have hheld := ((h.fits session).held mode n).2 hrecorded
  exact hs ((h.sound.valid n).sole howns hheld).1.symm

end

/-! ## The work of a statement -/

/-- A statement that writes in a transaction owns its tables, so only owned tables have pins after
it. -/
theorem guarded_finish (h : e.locks.Sound) (hpins : e.space.Pins (fun _ _ => False) e.Guarded)
    (hkeeps : keepsTables running.statement)
    (howned : (e.session session).inTransaction = true → writes running.statement = true →
      ∀ t ∈ running.tables, e.Guarded t.number) :
    (finish session running e).2.space.Pins (fun _ _ => False)
      (finish session running e).2.Guarded := by
  have hsame := sameClients_perform e (e.session session) running.statement running.tables
  have hperform := pins_perform hkeeps howned (fun _ => id) hpins
  rw [finish_snd]
  generalize ((perform (e.session session) running.statement running.tables).run e).2 = done
    at hsame hperform ⊢
  have hguarded : done.Guarded = e.Guarded := by
    funext k
    simp only [Guarded, Owns, Engine.session, hsame.locks, hsame.sessions]
  rw [← hguarded] at hperform
  split
  · exact guarded_releaseEach (hsame.locks ▸ h) hperform session running.mode running.tables
  · exact hperform

theorem allTables_finish_subset (hfiled : e.Filed names) (hkeeps : keepsTables running.statement)
    (session : Nat) : e.allTables ⊆ (finish session running e).2.allTables := by
  obtain ⟨names', -, hfiled'⟩ :=
    hfiled.perform (e.session session) running.statement running.tables
  have hperform := grows_perform hkeeps e hfiled.tables (e.session session) running.tables
  have hsubset := hperform.allTables_subset hfiled hfiled'
  rw [finish_snd]
  split
  · rw [allTables_congr (sameCatalog_releaseEach _ _ _ _).databases]
    exact hsubset
  · exact hsubset

theorem neat_finish (h : e.space.Neat e.allTables) (hfiled : e.Filed names)
    (hkeeps : keepsTables running.statement) (hfound : ∀ t ∈ running.tables, t ∈ e.allTables)
    (hapart : Table.AllApart (finish session running e).2.allTables) :
    (finish session running e).2.space.Neat (finish session running e).2.allTables := by
  obtain ⟨names', -, hfiled'⟩ :=
    hfiled.perform (e.session session) running.statement running.tables
  have hperform := neat_perform h hfiled hkeeps (e.session session) hfound rfl hfiled'
  rw [finish_snd] at hapart ⊢
  split at hapart
  · rename_i hreleases
    rw [if_pos hreleases]
    rw [allTables_congr (sameCatalog_releaseEach _ _ _ _).databases] at hapart ⊢
    exact neat_releaseEach (hperform hapart) session running.mode running.tables
  · rename_i hreleases
    rw [if_neg hreleases]
    exact hperform hapart

/-- The work of a statement leaves every page pinned that was. -/
theorem pinned_perform {may : Nat → Prop} (h : e.space.Neat e.allTables)
    (hpins : e.space.Pins (fun _ _ => False) may) (hfiled : e.Filed names)
    (hkeeps : keepsTables statement) {client : Session} {tables : List Table}
    (hmay : client.inTransaction = true → writes statement = true → ∀ t ∈ tables, may t.number)
    (ht : t ∈ e.allTables) (hpinned : e.space.Pinned t.number page) :
    ((perform client statement tables).run e).2.space.Pinned t.number page := by
  have hpins' := pins_perform hkeeps hmay (fun page hheld => ?_) (h.orderly.pins hpins)
  · exact hpins'.pinned ⟨⟨t, ht, rfl⟩, hpinned⟩
  · obtain ⟨⟨u, hu, hnumber⟩, -⟩ := hheld
    exact hfiled.number_ne hu hnumber

theorem pinned_finish (h : e.space.Neat e.allTables) (hsound : e.locks.Sound)
    (hpins : e.space.Pins (fun _ _ => False) e.Guarded) (hfiled : e.Filed names)
    (hkeeps : keepsTables running.statement)
    (howned : (e.session session).inTransaction = true → writes running.statement = true →
      ∀ t ∈ running.tables, e.Guarded t.number)
    (hstays : s ≠ session ∨ running.mode = .shared ∨ running.tables = [] ∨
      releasesLocks (e.session session) running.statement = false)
    (ht : t ∈ e.allTables) (howns : e.Owns s t.number) (hpinned : e.space.Pinned t.number page) :
    (finish session running e).2.space.Pinned t.number page := by
  have hsame := sameClients_perform e (e.session session) running.statement running.tables
  have hperform := pinned_perform h hpins hfiled hkeeps howned ht hpinned
  rw [finish_snd]
  generalize ((perform (e.session session) running.statement running.tables).run e).2 = done
    at hsame hperform ⊢
  split
  · rename_i hreleases
    have hsound' := hsame.locks ▸ hsound
    have howns' : done.Owns s t.number := by
      rw [Owns, hsame.locks]
      exact howns
    rcases hstays with hne | hmode | hnone | hkept
    · exact pinned_releaseEach hsound' _ (.inl hne) howns' hperform
    · exact pinned_releaseEach hsound' _ (.inr hmode) howns' hperform
    · simpa only [releaseEach, hnone, List.foldl_nil] using hperform
    · cases hreleases.symm.trans hkept
  · exact hperform

section

variable {w : Work} {may : Nat → Prop} (h : w.engine.space.Neat w.engine.allTables)
  (hpins : w.engine.space.Pins (fun _ _ => False) may)
  (hin : (w.engine.session w.session).inTransaction = true) (htables : w.running.tables = [t])
  (ht : t ∈ w.engine.allTables) (hmay : may t.number)

include h hpins hin htables ht hmay

/-- An update that succeeds in a transaction pins the pages of all rows that it accepts. -/
theorem Work.pinned_accepted (hpage : page ∈ w.accepted t) :
    (w.run w.engine).2.space.Pinned t.number page := by
  rw [accepted] at hpage
  split at hpage
  · rename_i name column value filter answer hstatement hanswer
    simp only [run, hstatement, htables, hin, perform, Action.run_bind_pure, onSpace,
      Action.run_onPart] at hanswer ⊢
    obtain ⟨count, hcount, -⟩ := Result.map_eq_ok.1 hanswer
    exact Table.pinned_updateWhere ht (h.orderly.proper t ht) hmay h.orderly hpins
      (Prod.ext hcount rfl) hpage
  · cases hpage

/-- The pages that a statement touches in a transaction are pinned when it is done. -/
theorem Work.pinned_touched (hwrites : writes w.running.statement = true)
    (hpage : (n, page) ∈ w.touched) : (w.run w.engine).2.space.Pinned n page := by
  have hcovers : t.Covers w.engine.allTables may (t.contents w.engine.space)
      (w.run w.engine).2.space := by
    apply keeps_write hwrites _ (Table.covers_self h.orderly hpins)
    intro u hu
    rw [htables] at hu
    obtain rfl := List.mem_singleton.1 hu
    rw [hin]
    exact Table.workKeeps_covers ht (h.orderly.proper u ht) hmay
  rw [touched, htables, List.flatMap_cons, List.flatMap_nil, List.append_nil] at hpage
  obtain ⟨_, htouched, heq⟩ := List.mem_map.1 hpage
  obtain ⟨rfl, rfl⟩ := Prod.mk.inj heq
  rcases List.mem_append.1 htouched with hchanged | haccepted
  · exact hcovers.changed _ hchanged
  · exact pinned_accepted h hpins hin htables ht hmay haccepted

end

end Engine

end PageDb
