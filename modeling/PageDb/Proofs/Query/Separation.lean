import PageDb.Proofs.Query.Drain
import PageDb.Proofs.Table.Separation

/-!
A query has to do with the tables that it names, and with no others.

Whatever relation getting rows of these tables respects, running the query respects it.
-/

namespace PageDb

section

variable {P : Table → Prop} {R : Tablespace → Tablespace → Prop}

/-! ## Scans -/

namespace Scan

/-- A scan of one of certain tables. -/
def Within (P : Table → Prop) (scan : Scan) : Prop := Walk.Within P scan.walk

theorem respects_setPlan (plan : ScanPlan) :
    (setPlan plan).Respects (Moving.Alike (Within P) R) :=
  Moving.respects_bind_mover fun _ hscan => Moving.respects_moveTo hscan

theorem respects_nextRow (hreads : Tablespace.ReadsRespect P R) :
    nextRow.Respects (Moving.Alike (Within P) R) :=
  Moving.respects_part (Walk.respects_nextRow hreads) (fun _ hscan => hscan)
    fun _ _ _ hwalk => hwalk

theorem respects_nextAccepted (hreads : Tablespace.ReadsRespect P R) (p : Option Predicate)
    (fuel : Nat) :
    (nextAccepted p fuel).Respects (Moving.Alike (Within P) R) := by
  induction fuel with
  | zero => exact .bind (respects_setPlan _) fun _ => .pure _
  | succ fuel ih =>
    refine .bind (respects_nextRow hreads) fun next => ?_
    cases next with
    | none => exact .bind (respects_setPlan _) fun _ => .pure _
    | some row =>
      refine Moving.respects_bind_mover fun _ _ => .bind (.lift _) fun accepted => ?_
      split
      · exact .pure _
      · exact ih

theorem respects_next (hreads : Tablespace.ReadsRespect P R) (p : Option Predicate) :
    (next p).Respects (Moving.Alike (Within P) R) :=
  Moving.respects_bind_get fun _ _ _ hscan hs =>
    ⟨congrArg (fun st : Store => nextAccepted p (st.rowCount + 1)) (hreads.store hscan hs),
      respects_nextAccepted hreads p _⟩

theorem respects_lookup (hreads : Tablespace.ReadsRespect P R) (p : Option Predicate)
    (constant : Operand) :
    (lookup p constant).Respects (Moving.Alike (Within P) R) := by
  refine Moving.respects_bind_mover fun scan hscan => .bind (.lift _) fun key => ?_
  refine .bind (Moving.respects_still (Table.respects_find? hreads hscan key)) fun found => ?_
  cases found with
  | none => exact .pure _
  | some row => exact .bind (.lift _) fun _ => .pure _

theorem respects_produce (hreads : Tablespace.ReadsRespect P R) (p : Option Predicate)
    (first : Bool) :
    (produce p first).Respects (Moving.Alike (Within P) R) := by
  refine Moving.respects_bind_mover fun scan hscan => ?_
  cases scan.plan with
  | everyRow => exact respects_next hreads none
  | filter => exact respects_next hreads p
  | done => exact .pure _
  | lookup constant =>
    refine .bind (respects_setPlan _) fun _ => ?_
    split
    · exact respects_lookup hreads p constant
    · exact .pure _
  | constant =>
    have hbranch (accepted : Bool) :
        (if accepted then do setPlan .everyRow; next none
          else do setPlan .done; pure none : Moving Scan (Option JointRow)).Respects
            (Moving.Alike (Within P) R) := by
      cases accepted with
      | true => exact .bind (respects_setPlan _) fun _ => respects_next hreads none
      | false => exact .bind (respects_setPlan _) fun _ => .pure _
    cases p with
    | none => exact .bind (.pure _) hbranch
    | some p => exact .bind (.lift _) fun _ => .bind (.pure _) hbranch

end Scan

/-! ## Joins -/

namespace Merge

/-- Walks through certain tables. -/
def Within (P : Table → Prop) (m : Merge) : Prop := Walk.Within P m.left ∧ Walk.Within P m.right

theorem respects_nextLeft (hreads : Tablespace.ReadsRespect P R) :
    nextLeft.Respects (Moving.Alike (Within P) R) :=
  Moving.respects_part (Walk.respects_nextKey hreads) (fun _ hm => hm.1)
    fun _ _ hm hwalk => ⟨hwalk, hm.2⟩

theorem respects_nextRight (hreads : Tablespace.ReadsRespect P R) :
    nextRight.Respects (Moving.Alike (Within P) R) :=
  Moving.respects_part (Walk.respects_nextKey hreads) (fun _ hm => hm.2)
    fun _ _ hm hwalk => ⟨hm.1, hwalk⟩

theorem respects_align (hreads : Tablespace.ReadsRespect P R) (fuel : Nat)
    (left right : Option Entry) :
    (align fuel left right).Respects (Moving.Alike (Within P) R) := by
  induction fuel generalizing left right with
  | zero => exact .pure _
  | succ fuel ih =>
    cases left with
    | none => exact .pure _
    | some l =>
      cases right with
      | none => exact .pure _
      | some r =>
        rw [align]
        cases l.compare r with
        | eq => exact .pure _
        | lt => exact .bind (respects_nextLeft hreads) fun _ => ih _ _
        | gt => exact .bind (respects_nextRight hreads) fun _ => ih _ _

theorem respects_nextPair (hreads : Tablespace.ReadsRespect P R) :
    nextPair.Respects (Moving.Alike (Within P) R) := by
  refine .bind (respects_nextLeft hreads) fun left => ?_
  refine .bind (respects_nextRight hreads) fun right => ?_
  refine Moving.respects_bind_get fun m s s' hm hs => ⟨?_, respects_align hreads _ _ _⟩
  have hleft : m.left.table.store s = m.left.table.store s' := hreads.store hm.1 hs
  have hright : m.right.table.store s = m.right.table.store s' := hreads.store hm.2 hs
  dsimp only
  rw [hleft, hright]

end Merge

namespace Join

/-- A join of certain tables. -/
structure Within (P : Table → Prop) (j : Join) : Prop where
  tables : ∀ t ∈ j.tables, P t
  walks : ∀ walk, some walk ∈ j.walks → Walk.Within P walk
  merge : ∀ m, j.merge = some m → Merge.Within P m

variable {j : Join}

theorem Within.walk? (h : j.Within P) {i : Nat} {walk : Walk} (hwalk : j.walk? i = some walk) :
    Walk.Within P walk := by
  cases hi : j.walks[i]? with
  | none => simp [Join.walk?, hi] at hwalk
  | some w =>
    obtain rfl : w = some walk := by simpa [Join.walk?, hi] using hwalk
    exact h.walks walk (List.mem_of_getElem? hi)

theorem Within.table (h : j.Within P) {i : Nat} {t : Table} (ht : j.tables[i]? = some t) : P t :=
  h.tables t (List.mem_of_getElem? ht)

theorem Within.withRow (h : j.Within P) (i : Nat) (row : Row) : (j.withRow i row).Within P :=
  ⟨h.tables, h.walks, h.merge⟩

theorem Within.withWalk (h : j.Within P) (i : Nat) {walk : Walk} (hwalk : Walk.Within P walk) :
    (j.withWalk i walk).Within P := by
  refine ⟨h.tables, fun w hw => ?_, h.merge⟩
  rcases List.mem_or_eq_of_mem_set hw with hin | heq
  · exact h.walks w hin
  · cases heq
    exact hwalk

theorem respects_update {f : Join → Join} (hf : ∀ j, Within P j → Within P (f j)) :
    (update f).Respects (Moving.Alike (Within P) R) :=
  Moving.respects_modify hf

theorem respects_withRow (i : Nat) (row : Row) :
    (update fun j => j.withRow i row).Respects (Moving.Alike (Within P) R) :=
  respects_update fun _ hj => hj.withRow i row

theorem respects_pull (hreads : Tablespace.ReadsRespect P R) (i : Nat) {walk : Walk}
    (hwalk : Walk.Within P walk) :
    (pull i walk).Respects (Moving.Alike (Within P) R) :=
  Moving.respects_part (Walk.respects_nextRow hreads) (fun _ _ => hwalk) fun _ _ hj hmoved =>
    hj.withWalk i hmoved

theorem respects_seed (hreads : Tablespace.ReadsRespect P R) (count i : Nat) :
    (seed count i).Respects (Moving.Alike (Within P) R) := by
  induction count generalizing i with
  | zero => exact .pure _
  | succ count ih =>
    refine Moving.respects_bind_mover fun j hj => ?_
    cases hwalk : j.walk? i with
    | none => exact ih (i + 1)
    | some walk =>
      refine .bind (respects_pull hreads i (hj.walk? hwalk)) fun found => ?_
      cases found with
      | none => exact .pure _
      | some row => exact .bind (respects_withRow i row) fun _ => ih (i + 1)

/-- A walk of its own beside a join. -/
def beside (walk : Walk) : Moving Join (Result (Option Row) × Walk) :=
  ExceptT.mk fun (j, space) =>
    let (result, (walk, space)) := Walk.nextRow.run (walk, space)
    (.ok (result, walk), (j, space))

theorem restart_eq (i : Nat) (table : Table) :
    restart i table = (do
      let (result, walk) ← beside table.walk
      match ← (result : Result (Option Row)) with
      | none => pure false
      | some row =>
        update fun j => (j.withRow i row).withWalk i walk
        pure true) := rfl

theorem respects_bind_beside (hreads : Tablespace.ReadsRespect P R) {α : Type} {walk : Walk}
    (hwalk : Walk.Within P walk)
    {f : Result (Option Row) × Walk → Moving Join α}
    (hf : ∀ r w, Walk.Within P w →
      (f (r, w)).Respects (Moving.Alike (Within P) R)) :
    (beside walk >>= f).Respects (Moving.Alike (Within P) R) := by
  rintro ⟨j, s⟩ ⟨_, s'⟩ ⟨rfl, hj, hs⟩
  have halike : Moving.Alike (Walk.Within P) R (walk, s) (walk, s') := ⟨rfl, hwalk, hs⟩
  obtain ⟨hanswer, hmoved, hwithin, hafter⟩ := Walk.respects_nextRow hreads _ _ halike
  have hrun (p : Tablespace) : (beside walk).run (j, p) =
      (.ok ((Walk.nextRow.run (walk, p)).1, (Walk.nextRow.run (walk, p)).2.1),
        (j, (Walk.nextRow.run (walk, p)).2.2)) := rfl
  rw [Action.run_bind_ok (hrun s), Action.run_bind_ok (hrun s'), ← hanswer, ← hmoved]
  exact hf _ _ hwithin _ _ ⟨rfl, hj, hafter⟩

theorem respects_restart (hreads : Tablespace.ReadsRespect P R) (i : Nat) {table : Table}
    (ht : P table) :
    (restart i table).Respects (Moving.Alike (Within P) R) := by
  have hwalk : Walk.Within P table.walk := ht
  rw [restart_eq]
  refine respects_bind_beside hreads hwalk fun r walk hmoved => .bind (.lift r) fun found => ?_
  cases found with
  | none => exact .pure _
  | some row =>
    exact .bind (respects_update fun _ hj => (hj.withRow i row).withWalk i hmoved) fun _ => .pure _

theorem respects_advance (hreads : Tablespace.ReadsRespect P R) (i : Nat) :
    (advance i).Respects (Moving.Alike (Within P) R) := by
  induction i with
  | zero => exact .pure _
  | succ i ih =>
    refine Moving.respects_bind_mover fun j hj => ?_
    cases hwalk : j.walk? i with
    | none => exact ih
    | some walk =>
      cases ht : j.tables[i]? with
      | none => exact ih
      | some table =>
        refine .bind (respects_pull hreads i (hj.walk? hwalk)) fun found => ?_
        cases found with
        | some row => exact .bind (respects_withRow i row) fun _ => .pure _
        | none =>
          dsimp only
          split
          · refine .bind (respects_restart hreads i (hj.table ht)) fun restarted => ?_
            split
            · exact ih
            · exact .pure _
          · exact .pure _

theorem respects_fetch (hreads : Tablespace.ReadsRespect P R) (pairs : List (Table × Entry))
    (h : ∀ p ∈ pairs, P p.1) :
    (fetch pairs).Respects R := by
  induction pairs with
  | nil => exact .pure _
  | cons p rest ih =>
    refine .bind (Table.respects_find? hreads (h p (by simp)) p.2) fun found => ?_
    cases found with
    | none => exact .pure _
    | some row => exact .bind (ih fun q hq => h q (by simp [hq])) fun _ => .pure _

theorem respects_finish :
    finish.Respects (Moving.Alike (Within P) R) :=
  .bind (respects_update fun _ hj => ⟨hj.tables, hj.walks, hj.merge⟩) fun _ => .pure _

theorem respects_mergeStep (hreads : Tablespace.ReadsRespect P R) {m : Merge} (hm : m.Within P) :
    (mergeStep m).Respects (Moving.Alike (Within P) R) := by
  have hnext := Merge.respects_nextPair hreads
  refine .bind (Moving.respects_part hnext (fun _ _ => hm) ?_) fun pair => ?_
  · rintro j moved hj hmoved
    refine ⟨hj.tables, hj.walks, ?_⟩
    rintro _ ⟨⟩
    exact hmoved
  cases pair with
  | none => exact respects_finish
  | some keys =>
    refine Moving.respects_bind_mover fun j hj => ?_
    refine .bind (Moving.respects_still (respects_fetch hreads _ fun p hp => ?_)) fun found => ?_
    · exact hj.tables p.1 (List.of_mem_zip hp).1
    · cases found with
      | none => exact .pure _
      | some rows => exact .pure _

theorem respects_lookupStep (hreads : Tablespace.ReadsRespect P R) (target source column : Nat) :
    (lookupStep target source column).Respects (Moving.Alike (Within P) R) := by
  refine Moving.respects_bind_mover fun j hj => ?_
  cases (j.current[source]?).join with
  | none => exact .pure _
  | some row =>
    cases ht : j.tables[target]? with
    | none => exact .pure _
    | some table =>
      have hfind := Table.respects_find? hreads (hj.table ht)
      refine .bind (Moving.respects_still (hfind _)) fun found => ?_
      cases found with
      | none => exact .pure _
      | some found =>
        exact .bind (respects_withRow target found) fun _ =>
          Moving.respects_bind_mover fun _ _ => .pure _

theorem respects_walkStep (hreads : Tablespace.ReadsRespect P R) :
    walkStep.Respects (Moving.Alike (Within P) R) := by
  refine Moving.respects_bind_mover fun j hj => ?_
  dsimp only
  split
  case' isTrue => refine .bind (respects_advance hreads _) fun advanced => ?_
  case' isFalse =>
    refine .bind (respects_update fun _ hj => ⟨hj.tables, hj.walks, hj.merge⟩) fun _ =>
      .bind (respects_seed hreads _ 0) fun advanced => ?_
  all_goals
    cases advanced with
    | false => exact respects_finish
    | true =>
      cases j.plan with
      | lookup target source column => exact respects_lookupStep hreads target source column
      | product => exact Moving.respects_bind_mover fun _ _ => .pure _
      | merge => exact Moving.respects_bind_mover fun _ _ => .pure _

theorem respects_step (hreads : Tablespace.ReadsRespect P R) :
    step.Respects (Moving.Alike (Within P) R) := by
  refine Moving.respects_bind_mover fun j hj => ?_
  split
  · exact .pure _
  · cases hm : j.merge with
    | some m => exact respects_mergeStep hreads (hj.merge m hm)
    | none => exact respects_walkStep hreads

theorem respects_produceWithin (hreads : Tablespace.ReadsRespect P R) (p : Option Predicate)
    (fuel : Nat) :
    (produceWithin p fuel).Respects (Moving.Alike (Within P) R) := by
  induction fuel with
  | zero => exact .pure _
  | succ fuel ih =>
    refine .bind (respects_step hreads) fun next => ?_
    cases next with
    | exhausted => exact .pure _
    | discarded => exact ih
    | rows rows =>
      refine Moving.respects_bind_mover fun j _ => .bind (.lift _) fun accepted => ?_
      split
      · refine .bind (.lift _) fun accepted => ?_
        split
        · exact .pure _
        · exact ih
      · exact ih

theorem combinations_eq (hreads : Tablespace.ReadsRespect P R) (hj : j.Within P) {s s' : Tablespace}
    (hs : R s s') : j.combinations s = j.combinations s' := by
  have hcounts : (j.tables.map fun t => (t.store s).rowCount + 1) =
      j.tables.map fun t => (t.store s').rowCount + 1 :=
    List.map_congr_left fun t ht => by rw [hreads.store (hj.tables t ht) hs]
  rw [combinations, combinations, hcounts]

theorem respects_produce (hreads : Tablespace.ReadsRespect P R) (p : Option Predicate) :
    (produce p).Respects (Moving.Alike (Within P) R) :=
  Moving.respects_bind_get fun _ _ _ hj hs =>
    ⟨congrArg (produceWithin p) (combinations_eq hreads hj hs), respects_produceWithin hreads p _⟩

theorem within_ofTables {tables : List Table} (h : ∀ t ∈ tables, P t)
    (p : Option Predicate) : (Join.ofTables tables p).Within P := by
  have hwalks : ∀ walk, some walk ∈ tables.map (fun t => some t.walk) → Walk.Within P walk := by
    intro walk hwalk
    obtain ⟨t, ht, heq⟩ := List.mem_map.1 hwalk
    cases heq
    exact h t ht
  refine ⟨h, ?_, ?_⟩
  · intro walk hwalk
    simp only [ofTables] at hwalk
    cases hplan : planFor tables p with
    | product => exact hwalks walk (by simpa [hplan] using hwalk)
    | merge => simp [hplan] at hwalk
    | lookup target source column =>
      simp only [hplan] at hwalk
      rcases List.mem_or_eq_of_mem_set hwalk with hin | heq
      · exact hwalks walk hin
      · cases heq
  · intro m hm
    simp only [ofTables] at hm
    split at hm
    · cases hm
      exact ⟨h _ List.mem_cons_self, h _ (List.mem_cons_of_mem _ List.mem_cons_self)⟩
    · cases hm

end Join

/-! ## Queries -/

namespace Source

/-- A source that reads certain tables. -/
def Within (P : Table → Prop) : Source → Prop
  | .scan s => s.Within P
  | .join j => j.Within P

theorem respects_produce (hreads : Tablespace.ReadsRespect P R) (p : Option Predicate)
    (first : Bool) :
    (produce p first).Respects (Moving.Alike (Within P) R) := by
  rintro ⟨source, s⟩ ⟨_, s'⟩ ⟨rfl, hsource, hs⟩
  cases source with
  | scan scan =>
    have halike : Moving.Alike (Scan.Within P) R (scan, s) (scan, s') := ⟨rfl, hsource, hs⟩
    obtain ⟨hanswer, hmoved, hwithin, hafter⟩ := Scan.respects_produce hreads p first _ _ halike
    exact ⟨hanswer, congrArg Source.scan hmoved, hwithin, hafter⟩
  | join j =>
    have halike : Moving.Alike (Join.Within P) R (j, s) (j, s') := ⟨rfl, hsource, hs⟩
    obtain ⟨hanswer, hmoved, hwithin, hafter⟩ := Join.respects_produce hreads p _ _ halike
    exact ⟨hanswer, congrArg Source.join hmoved, hwithin, hafter⟩

end Source

namespace Lookahead

variable {ρ σ : Type} {R : σ → σ → Prop}

/-- The same row made ahead, over related states. -/
def Alike (R : σ → σ → Prop) (s s' : Lookahead ρ × σ) : Prop := s.1 = s'.1 ∧ R s.2 s'.2

theorem respects_update (f : Lookahead ρ → Lookahead ρ) :
    (update f : Action (Lookahead ρ × σ) Unit).Respects (Alike R) :=
  .modify fun _ _ hs => ⟨congrArg f hs.1, hs.2⟩

theorem respects_make {produce : Bool → Action σ (Option ρ)}
    (h : ∀ first, (produce first).Respects R) : (make produce).Respects (Alike R) := by
  refine .bind_get fun s s' hs => ⟨by rw [hs.1], ?_⟩
  exact (Action.Respects.onPart (h _) (fun _ _ hs => hs.2) fun _ _ _ _ hs hp => ⟨hs.1, hp⟩).attempt

/-- Handing out the row that is ready. -/
theorem respects_handOut {produce : Bool → Action σ (Option ρ)}
    (h : ∀ first, (produce first).Respects R) :
    (do
      match (← get).1.ready with
      | none => pure none
      | some row =>
        update fun l => { l with ready := none }
        match ← make produce with
        | .ok following => update fun l => { l with ready := following }
        | .error e => update fun l => { l with held := some e }
        pure (some row) : Action (Lookahead ρ × σ) (Option ρ)).Respects (Alike R) := by
  refine .bind_get fun s s' hs => ⟨by rw [hs.1], ?_⟩
  cases s.1.ready with
  | none => exact .pure _
  | some row =>
    refine .bind (respects_update _) fun _ => .bind (respects_make h) fun following => ?_
    cases following with
    | error e => exact .bind (respects_update _) fun _ => .pure _
    | ok following => exact .bind (respects_update _) fun _ => .pure _

theorem respects_next {produce : Bool → Action σ (Option ρ)}
    (h : ∀ first, (produce first).Respects R) : (next produce).Respects (Alike R) := by
  refine .bind_get fun s s' hs => ⟨by rw [hs.1], ?_⟩
  cases s.1.held with
  | some e => exact .bind (respects_update _) fun _ => .throw e
  | none =>
    refine .bind_get fun s s' hs => ⟨by rw [hs.1], ?_⟩
    dsimp only
    split
    · exact .bind (respects_make h) fun made => .bind (respects_update _) fun _ =>
        .bind (.lift made) fun _ => .bind (respects_update _) fun _ => respects_handOut h
    · exact respects_handOut h

end Lookahead

namespace Query

/-- A query that reads certain tables. -/
def Within (P : Table → Prop) (q : Query) : Prop := q.source.Within P

variable {q : Query} {tables : List Table}

theorem respects_next (hreads : Tablespace.ReadsRespect P R) :
    next.Respects (Moving.Alike (Within P) R) := by
  rintro ⟨q, s⟩ ⟨_, s'⟩ ⟨rfl, hq, hs⟩
  have halike : Lookahead.Alike
      (Moving.Alike (Source.Within P) R)
      (q.ahead, q.source, s) (q.ahead, q.source, s') := ⟨rfl, rfl, hq, hs⟩
  obtain ⟨hanswer, hahead, hmoved, hwithin, hafter⟩ :=
    Lookahead.respects_next (Source.respects_produce hreads q.selection) _ _ halike
  simp only [run_next]
  rw [← hanswer, ← hahead, ← hmoved]
  exact ⟨rfl, rfl, hwithin, hafter⟩

theorem respects_rowsWithin (hreads : Tablespace.ReadsRespect P R) (fuel : Nat) :
    (rowsWithin fuel).Respects (Moving.Alike (Within P) R) := by
  induction fuel with
  | zero => exact .pure _
  | succ fuel ih =>
    refine .bind (respects_next hreads) fun next => ?_
    cases next with
    | none => exact .pure _
    | some row => exact .bind ih fun _ => .pure _

theorem rowBound_eq (hreads : Tablespace.ReadsRespect P R) (hq : q.Within P) {s s' : Tablespace}
    (hs : R s s') : q.rowBound s = q.rowBound s' := by
  unfold Within at hq
  unfold rowBound
  cases hsource : q.source with
  | scan scan =>
    rw [hsource] at hq
    have hstore : scan.walk.table.store s = scan.walk.table.store s' := hreads.store hq hs
    dsimp only
    rw [hstore]
  | join j =>
    rw [hsource] at hq
    dsimp only
    rw [Join.combinations_eq hreads hq hs]

theorem respects_rows (hreads : Tablespace.ReadsRespect P R) :
    rows.Respects (Moving.Alike (Within P) R) :=
  Moving.respects_bind_get fun _ _ _ hq hs =>
    ⟨congrArg rowsWithin (rowBound_eq hreads hq hs), respects_rowsWithin hreads _⟩

theorem within_ofTable {t : Table} (ht : P t) : (ofTable t).Within P := ht

theorem within_ofJoin (h : ∀ t ∈ tables, P t) (on : Option Predicate) :
    (ofJoin tables on).Within P := Join.within_ofTables h on

theorem Within.withSelection (h : q.Within P) (p : Option Predicate) :
    (q.withSelection p).Within P := by
  obtain ⟨source, selection, ahead⟩ := q
  cases source <;> exact h

end Query

end

end PageDb
