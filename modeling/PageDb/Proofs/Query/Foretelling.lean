import PageDb.Proofs.Query.Exhaustion
import PageDb.Proofs.Query.Equijoin
import PageDb.Proofs.Query.Scanning

/-!
What a query tells about its next call.

After a call that has handed out a row or nothing, the lookahead holds all that the next call will hand
out: `hasNext` then says whether it hands out anything.  After a call that has failed nothing has been
made ahead, and `hasNext` says no whatever is still to come.  Tables may be out of reach and come back;
all that is needed is that their indexes are in order.
-/

namespace PageDb

/-! ## Lookaheads -/

namespace Lookahead

variable {ρ σ : Type}

/-- A source that knows its end: when it makes nothing it is done, and then it makes nothing more.
Apart from that an invariant is kept. -/
structure Finishes (produce : Bool → Action σ (Option ρ)) (I Done : σ → Prop) : Prop where
  leads (b : Bool) {s : σ} : I s → (produce b).Leads s (fun row s' => I s' ∧ (row = none → Done s')) I
  stays (b : Bool) {s : σ} : Done s → (produce b).run s = (.ok none, s)

/-- A lookahead after a call with the given answer. -/
inductive After (I Done : σ → Prop) : Result (Option ρ) → Lookahead ρ × σ → Prop
  | failed {e : Error} {s : σ} : I s → After I Done (.error e) (⟨none, false, none⟩, s)
  | ended {s : σ} : I s → Done s → After I Done (.ok none) (⟨none, false, none⟩, s)
  | ready {row following : ρ} {s : σ} :
    I s → After I Done (.ok (some row)) (⟨some following, false, none⟩, s)
  | held {row : ρ} {e : Error} {s : σ} :
    I s → After I Done (.ok (some row)) (⟨none, false, some e⟩, s)
  | last {row : ρ} {s : σ} :
    I s → Done s → After I Done (.ok (some row)) (⟨none, false, none⟩, s)

variable {produce : Bool → Action σ (Option ρ)} {I Done : σ → Prop} {s : σ}

/-- A call leaves what is to be found after one with its answer. -/
def Answers (I Done : σ → Prop) (given : Result (Option ρ) × (Lookahead ρ × σ)) : Prop :=
  After I Done given.1 given.2

theorem Finishes.answers_of_ready (h : Finishes produce I Done) (row : ρ) (hs : I s) :
    Answers I Done ((next produce).run (⟨some row, false, none⟩, s)) := by
  have hmade := h.leads false hs
  rw [next_of_ready]
  unfold Action.Leads at hmade
  -- the row is handed out whatever comes of making the following one
  rcases hrun : (produce false).run s with ⟨e | _ | following, s'⟩
  · rw [hrun] at hmade
    exact .held hmade
  · rw [hrun] at hmade
    exact .last hmade.1 (hmade.2 rfl)
  · rw [hrun] at hmade
    exact .ready hmade.1

/-- When nothing has been made ahead, a row is made first. -/
theorem Finishes.answers_of_none (h : Finishes produce I Done) (b : Bool) (hs : I s) :
    Answers I Done ((next produce).run (⟨none, b, none⟩, s)) := by
  have hmade := h.leads b hs
  rw [next_of_none]
  unfold Action.Leads at hmade
  rcases hrun : (produce b).run s with ⟨e | _ | row, s'⟩
  · rw [hrun] at hmade
    exact .failed hmade
  · rw [hrun] at hmade
    exact .ended hmade.1 (hmade.2 rfl)
  · rw [hrun] at hmade
    exact h.answers_of_ready row hmade.1

theorem Finishes.answers_of_after (h : Finishes produce I Done) {r : Result (Option ρ)}
    {now : Lookahead ρ × σ} (hafter : After I Done r now) :
    Answers I Done ((next produce).run now) := by
  cases hafter with
  | failed hs => exact h.answers_of_none false hs
  | ended hs _ => exact h.answers_of_none false hs
  | last hs _ => exact h.answers_of_none false hs
  | ready hs => exact h.answers_of_ready _ hs
  | held hs =>
    rw [next_of_held]
    exact .failed hs

/-- A lookahead before its first call or after some call. -/
def Under (I Done : σ → Prop) (now : Lookahead ρ × σ) : Prop :=
  (now.1 = {} ∧ I now.2) ∨ ∃ r, After I Done r now

theorem Finishes.answers (h : Finishes produce I Done) {now : Lookahead ρ × σ}
    (hnow : Under I Done now) : Answers I Done ((next produce).run now) := by
  obtain ⟨l, s⟩ := now
  rcases hnow with ⟨rfl, hs⟩ | ⟨r, hafter⟩
  · exact h.answers_of_none true hs
  · exact h.answers_of_after hafter

/-- Others may work on a source between two calls. -/
theorem After.worked {r : Result (Option ρ)} {now : Lookahead ρ × σ} (hafter : After I Done r now)
    {work : σ → σ} (hI : ∀ s, I s → I (work s)) (hDone : ∀ s, Done s → Done (work s)) :
    After I Done r (now.1, work now.2) := by
  cases hafter with
  | failed hs => exact .failed (hI _ hs)
  | ended hs hdone => exact .ended (hI _ hs) (hDone _ hdone)
  | ready hs => exact .ready (hI _ hs)
  | held hs => exact .held (hI _ hs)
  | last hs hdone => exact .last (hI _ hs) (hDone _ hdone)

theorem Finishes.next_of_done (h : Finishes produce I Done) (hdone : Done s) :
    ((next produce).run (⟨none, false, none⟩, s)).1 = .ok none := by
  rw [next_of_none, h.stays false hdone]

/-- A lookahead says that something follows, unless the last call failed, exactly if the next call
answers anything but the end. -/
theorem Finishes.hasNext_iff (h : Finishes produce I Done) {r : Result (Option ρ)}
    {now : Lookahead ρ × σ} (hafter : After I Done r now) :
    now.1.hasNext = true ↔ (∀ e, r ≠ .error e) ∧ ((next produce).run now).1 ≠ .ok none := by
  cases hafter with
  | @failed e s hs => simp [hasNext]
  | ended _ hdone => simp [hasNext, h.next_of_done hdone]
  | last _ hdone => simp [hasNext, h.next_of_done hdone]
  | ready _ => simp [hasNext, next_of_ready]
  | held _ => simp [hasNext, next_of_held]

end Lookahead

/-! ## Sources -/

namespace Scan

variable {scan : Scan} {s : Tablespace}

/-- If there is no row the scan is done. -/
def Made (row : Option JointRow) (now : Scan × Tablespace) : Prop :=
  row = none → now.1.plan = .done

theorem leads_nextAccepted (p : Option Predicate) (fuel : Nat) :
    (nextAccepted p fuel).Leads (scan, s) Made fun _ => True := by
  induction fuel generalizing scan s with
  | zero => exact .bind_ok (run_setPlan .done scan s) (.pure fun _ => rfl)
  | succ fuel ih =>
    refine .bind (.any nextRow _) ?_
    rintro row ⟨scan', s'⟩ -
    cases row with
    | none => exact .bind_ok (run_setPlan .done scan' s') (.pure fun _ => rfl)
    | some row =>
      refine .bind_ok (Moving.run_mover scan' s') (.bind (.any _ _) ?_)
      rintro accepted ⟨scan'', s''⟩ -
      split
      · exact .pure nofun
      · exact ih

theorem leads_next (p : Option Predicate) : (next p).Leads (scan, s) Made fun _ => True :=
  .bind_ok (Action.run_get _) (leads_nextAccepted p _)

/-- Looking a row up does not change the scan. -/
theorem leads_lookup (p : Option Predicate) (constant : Operand) :
    (lookup p constant).Leads (scan, s) (fun _ now => scan = now.1) fun _ => True := by
  refine .bind_ok (Moving.run_mover scan s) ?_
  refine .bind (P := fun _ now => scan = now.1) (.lift (fun _ _ => rfl) trivial) ?_
  rintro key ⟨_, s₁⟩ rfl
  refine .bind (Moving.leads_still (.any _ _) fun _ _ => trivial) ?_
  rintro found ⟨_, s₂⟩ ⟨rfl, -⟩
  cases found with
  | none => exact .pure rfl
  | some row =>
    refine .bind (P := fun _ now => scan = now.1) (.lift (fun _ _ => rfl) trivial) ?_
    rintro accepted ⟨_, s₃⟩ rfl
    exact .pure rfl

/-- A scan that makes no row is done. -/
theorem leads_produce (p : Option Predicate) (b : Bool) :
    (produce p b).Leads (scan, s) Made fun _ => True := by
  refine .bind_ok (Moving.run_mover scan s) ?_
  cases hplan : scan.plan with
  | everyRow => exact leads_next none
  | filter => exact leads_next p
  | done => exact .pure fun _ => hplan
  | lookup constant =>
    refine .bind_ok (run_setPlan .done scan s) ?_
    split
    · -- the plan was changed before the row is looked up
      refine (leads_lookup p constant).mono ?_ fun _ _ => trivial
      rintro row now hsame -
      rw [← hsame]
    · exact .pure fun _ => rfl
  | constant =>
    have hbranch {scan' : Scan} {s' : Tablespace} (accepted : Bool) :
        (if accepted then do setPlan .everyRow; next none
          else do setPlan .done; pure none : Moving Scan (Option JointRow)).Leads (scan', s') Made
            fun _ => True := by
      cases accepted with
      | true => exact .bind_ok (run_setPlan .everyRow scan' s') (leads_next none)
      | false => exact .bind_ok (run_setPlan .done scan' s') (.pure fun _ => rfl)
    cases p with
    | none => exact hbranch true
    | some p =>
      refine .bind (.any _ _) ?_
      rintro truth ⟨scan', s'⟩ -
      exact hbranch truth.isTrue

theorem produce_of_done (h : scan.plan = .done) (p : Option Predicate) (b : Bool) :
    (produce p b).run (scan, s) = (.ok none, (scan, s)) := by
  unfold produce
  rw [Action.run_bind_ok (Moving.run_mover scan s)]
  simp only [h]
  rfl

end Scan

namespace Join

variable {tables : List Table}

/-- A new join walks through its tables from their beginnings. -/
theorem formed_ofTables (tables : List Table) (on : Option Predicate) :
    (ofTables tables on).Formed tables := by
  have hwhole (i : Nat) (walk : Walk) (h : ((tables.map fun t => some t.walk)[i]?).join = some walk) :
      tables[i]? = some walk.table := by
    rw [List.getElem?_map] at h
    cases ht : tables[i]? with
    | none => simp [ht] at h
    | some t =>
      obtain rfl : t.walk = walk := by simpa [ht] using h
      rfl
  refine ⟨rfl, fun i walk hwalk => ?_, fun m hm => ?_⟩
  · unfold Join.walk? ofTables at hwalk
    dsimp only at hwalk
    split at hwalk
    · exact hwhole i walk hwalk
    · rename_i target _ _ _
      by_cases hi : i = target
      · subst hi
        rw [List.getElem?_set_self'] at hwalk
        cases hplace : (tables.map fun t => some t.walk)[i]? <;> simp [hplace] at hwalk
      · rw [List.getElem?_set_ne (Ne.symm hi)] at hwalk
        exact hwhole i walk hwalk
    · rw [List.getElem?_map] at hwalk
      cases ht : tables[i]? <;> simp [ht] at hwalk
  · unfold ofTables at hm
    dsimp only at hm
    split at hm
    · cases hm
      exact ⟨List.mem_cons_self, List.mem_cons_of_mem _ List.mem_cons_self⟩
    · cases hm

end Join

namespace Query

/-- A source of a query over one table, and one that is done. -/
theorem finishes_scan (p : Option Predicate) :
    Lookahead.Finishes (Source.produce p) (fun now => ∃ scan, now.1 = .scan scan)
      fun now => ∃ scan : Scan, now.1 = .scan scan ∧ scan.plan = .done where
  leads := by
    rintro b ⟨_, s⟩ ⟨scan, rfl⟩
    have hmade : (Scan.produce p b).Leads (scan, s) Scan.Made fun _ => True := Scan.leads_produce p b
    unfold Action.Leads at hmade ⊢
    rw [Scan.run_source]
    rcases hrun : (Scan.produce p b).run (scan, s) with ⟨e | row, scan', s'⟩
    · exact ⟨scan', rfl⟩
    · rw [hrun] at hmade
      exact ⟨⟨scan', rfl⟩, fun hnone => ⟨scan', rfl, hmade hnone⟩⟩
  stays := by
    rintro b ⟨_, s⟩ ⟨scan, rfl, hdone⟩
    rw [Scan.run_source, Scan.produce_of_done hdone]

theorem finishes_join (tables : List Table) (p : Option Predicate) :
    Lookahead.Finishes (Source.produce p)
      (fun now => ∃ j, now.1 = .join j ∧ j.Formed tables ∧ Tablespace.Indexed tables now.2)
      fun now => ∃ j : Join, now.1 = .join j ∧ j.exhausted = true where
  leads := by
    rintro b ⟨_, s⟩ ⟨j, rfl, hj, hs⟩
    have hmade := Join.leads_produce hs hj (Tablespace.keyed_keyList s) p
    unfold Action.Leads at hmade ⊢
    rw [Join.run_source]
    rcases hrun : (Join.produce p).run (j, s) with ⟨e | row, j', s'⟩
    · rw [hrun] at hmade
      exact ⟨j', rfl, hmade.1, hmade.2.indexed hs⟩
    · rw [hrun] at hmade
      exact ⟨⟨j', rfl, hmade.1.1, hmade.1.2.indexed hs⟩, fun hnone => ⟨j', rfl, hmade.2 hnone⟩⟩
  stays := by
    rintro b ⟨_, s⟩ ⟨j, rfl, hended⟩
    rw [Join.run_source, Join.produce_of_exhausted hended]

/-! ## Calls -/

section Calls

variable {I Done : Source × Tablespace → Prop} {p : Option Predicate}
  {work : Tablespace → Tablespace} {works : List (Tablespace → Tablespace)}

/-- Others may work on the tables without changing what is known of a source. -/
def Bears (I Done : Source × Tablespace → Prop) (work : Tablespace → Tablespace) : Prop :=
  ∀ source s, (I (source, s) → I (source, work s)) ∧ (Done (source, s) → Done (source, work s))

/-- A query before its first call or after some call. -/
def Under (I Done : Source × Tablespace → Prop) (p : Option Predicate) (now : Query × Tablespace) :
    Prop :=
  now.1.selection = p ∧ Lookahead.Under I Done (now.1.ahead, now.1.source, now.2)

/-- A query after a call with the given answer. -/
def After (I Done : Source × Tablespace → Prop) (p : Option Predicate) (r : Result (Option JointRow))
    (now : Query × Tablespace) : Prop :=
  now.1.selection = p ∧ Lookahead.After I Done r (now.1.ahead, now.1.source, now.2)

theorem after_next (h : Lookahead.Finishes (Source.produce p) I Done) {now : Query × Tablespace}
    (hnow : Under I Done p now) : After I Done p (next.run now).1 (next.run now).2 := by
  obtain ⟨q, s⟩ := now
  obtain ⟨rfl, hunder⟩ := hnow
  rw [run_next]
  exact ⟨rfl, h.answers hunder⟩

theorem After.worked {r : Result (Option JointRow)} {now : Query × Tablespace}
    (h : After I Done p r now) (hwork : Bears I Done work) :
    After I Done p r (now.1, work now.2) :=
  ⟨h.1, h.2.worked (fun _ => (hwork _ _).1) fun _ => (hwork _ _).2⟩

theorem under_reached (h : Lookahead.Finishes (Source.produce p) I Done)
    (hworks : ∀ work ∈ works, Bears I Done work) {now : Query × Tablespace}
    (hnow : Under I Done p now) : Under I Done p (Moving.reached next works now) := by
  induction works generalizing now with
  | nil => exact hnow
  | cons work rest ih =>
    have hafter := (after_next h hnow).worked (hworks work (by simp))
    exact ih (fun w hw => hworks w (by simp [hw])) ⟨hafter.1, .inr ⟨_, hafter.2⟩⟩

/-- What a query tells after any number of calls and others' works, if its source knows its end. -/
theorem hasNext_of_finishes (h : Lookahead.Finishes (Source.produce p) I Done) {source : Source}
    {s : Tablespace} (hstart : I (source, s)) (hworks : ∀ w ∈ work :: works, Bears I Done w) :
    let given := next.run (Moving.reached next works (⟨source, p, {}⟩, s))
    given.2.1.hasNext = true ↔
      (∀ e, given.1 ≠ .error e) ∧ (next.run (given.2.1, work given.2.2)).1 ≠ .ok none := by
  intro given
  have hunder : Under I Done p (Moving.reached next works (⟨source, p, {}⟩, s)) :=
    under_reached h (fun w hw => hworks w (List.mem_cons_of_mem _ hw)) ⟨rfl, .inl ⟨rfl, hstart⟩⟩
  obtain ⟨hselection, hafter⟩ := (after_next h hunder).worked (hworks work List.mem_cons_self)
  rw [run_next, hselection]
  exact h.hasNext_iff hafter

end Calls

/-- After a call that has not failed, a query says that something follows exactly if its next call
hands out a row or fails; after a call that has failed it says that nothing does.  This holds after any
number of calls, whatever they have answered and whatever others do to the tables meanwhile, as long as
the indexes stay in order. -/
theorem hasNext_foretells {tables : List Table} {s : Tablespace} (h : Tablespace.Indexed tables s)
    {q : Query} (hq : (∃ t, q = ofTable t) ∨ ∃ on, q = ofJoin tables on) (p : Option Predicate)
    {works : List (Tablespace → Tablespace)} {work : Tablespace → Tablespace}
    (hworks : ∀ w ∈ work :: works, ∀ s, Tablespace.Indexed tables s → Tablespace.Indexed tables (w s)) :
    let given := next.run (Moving.reached next works (q.withSelection p, s))
    given.2.1.hasNext = true ↔
      (∀ e, given.1 ≠ .error e) ∧ (next.run (given.2.1, work given.2.2)).1 ≠ .ok none := by
  rcases hq with ⟨t, rfl⟩ | ⟨on, rfl⟩
  · exact hasNext_of_finishes (finishes_scan p) ⟨⟨t.walk, t.planFor p⟩, rfl⟩
      fun w _ source s => ⟨id, id⟩
  · refine hasNext_of_finishes (finishes_join tables p) ⟨_, rfl, Join.formed_ofTables tables on, h⟩
      fun w hw source s => ⟨?_, id⟩
    rintro ⟨j, hsource, hj, hs⟩
    exact ⟨j, hsource, hj, hworks w hw s hs⟩

/-- Two tables are merged, and after the first row there is another one to come. -/
theorem hasNext_foretells_of_ints :
    let s := withKeys .int [["3", "1", "2"], ["2", "4", "3"]]
    let q := ofJoin (keyTables .int) (some (.equates "x" "y"))
    let given := next.run (q.withSelection none, s)
    Tablespace.Indexed (keyTables .int) s ∧
      given.1.map (Option.map JointRow.entries) = .ok (some [.int 2, .int 2]) ∧
      given.2.1.hasNext = true ∧ (next.run given.2).1 ≠ .ok none := by
  intro s q given
  have hindexed : Tablespace.Indexed (keyTables .int) s := (orderly_withKeys _ _).holds.indexed
  have hnext : given.2.1.hasNext = true := by decide +kernel
  have hworks : ∀ w ∈ [id], ∀ s, Tablespace.Indexed (keyTables .int) s →
      Tablespace.Indexed (keyTables .int) (w s) := by simp
  have htells := hasNext_foretells hindexed
    (.inr ⟨some (.equates "x" "y"), rfl⟩ : (∃ t, q = ofTable t) ∨ _) none hworks
  have hanswer : given.1.map (Option.map JointRow.entries) = .ok (some [.int 2, .int 2]) := by
    decide +kernel
  clear_value s q
  exact ⟨hindexed, hanswer, hnext, (htells.1 hnext).2⟩

/-- Once the first call has failed a query says that nothing follows, but a row does. -/
theorem hasNext_misses_row :
    let given := next.run ((ofTable noted).withSelection (some numbered), notedSpace)
    Tablespace.Orderly [noted] notedSpace ∧ given.1 = .error (.typeMismatch .text .number) ∧
      given.2.1.hasNext = false ∧
      (next.run given.2).1.map (Option.map JointRow.entries) = .ok (some [.int 5, .null]) :=
  ⟨orderly_noted, by decide +kernel, by decide +kernel, by decide +kernel⟩

end Query

end PageDb
