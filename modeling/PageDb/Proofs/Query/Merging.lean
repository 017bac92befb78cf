import PageDb.Proofs.Query.Drain

/-!
The combinations that a join makes by walking two tables in step.

`Merge.pairUp` is the merge of two lists of bindings: at each point the smaller key is passed over,
and keys that are the same give a pair.
-/

namespace PageDb

namespace Merge

/-- The pairs of bindings that walking in step meets. -/
def pairUp : List (Entry × Row) → List (Entry × Row) → List ((Entry × Row) × (Entry × Row))
  | [], _ => []
  | _ :: _, [] => []
  | l :: left, r :: right =>
    match l.1.compare r.1 with
    | .eq => (l, r) :: pairUp left right
    | .lt => pairUp left (r :: right)
    | .gt => pairUp (l :: left) right
termination_by left right => left.length + right.length

/-- No binding of the left list is met twice. -/
theorem pairUp_sublist (left right : List (Entry × Row)) :
    ((pairUp left right).map Prod.fst).Sublist left := by
  fun_induction pairUp left right with
  | case1 right => simp
  | case2 l left => simp
  | case3 l left r right heq ih => simpa using ih
  | case4 l left r right hlt ih => exact ih.cons l
  | case5 l left r right hgt ih => exact ih

/-- No binding of the right list is met twice. -/
theorem pairUp_sublist_right (left right : List (Entry × Row)) :
    ((pairUp left right).map Prod.snd).Sublist right := by
  fun_induction pairUp left right with
  | case1 right => simp
  | case2 l left => simp
  | case3 l left r right heq ih => simpa using ih
  | case4 l left r right hlt ih => exact ih
  | case5 l left r right hgt ih => exact ih.cons r

theorem mem_of_mem_pairUp {left right : List (Entry × Row)} {l r : Entry × Row}
    (h : (l, r) ∈ pairUp left right) : l ∈ left ∧ r ∈ right :=
  ⟨(pairUp_sublist left right).subset (List.mem_map_of_mem (f := Prod.fst) h),
    (pairUp_sublist_right left right).subset (List.mem_map_of_mem (f := Prod.snd) h)⟩

/-- The keys of the pairs that walking in step meets. -/
def metKeys (left right : List (Entry × Row)) : List (Entry × Entry) :=
  (pairUp left right).map (Prod.map Prod.fst Prod.fst)

/-- Two walks in step that have yet to give out the given bindings. -/
structure Ahead (rows : Table → SortedMap Entry Row) (t u : Table) (m : Merge)
    (left right : List (Entry × Row)) : Prop where
  leftTable : m.left.table = t
  rightTable : m.right.table = u
  left : m.left.Ahead (rows t) left
  right : m.right.Ahead (rows u) right

variable {tables : List Table} {rows : Table → SortedMap Entry Row} {s : Tablespace} {t u : Table}
  {m : Merge} {left right : List (Entry × Row)}

theorem nextLeft_run (h : Tablespace.Holds tables rows s) (ht : t ∈ tables)
    (hahead : m.Ahead rows t u left right) :
    ∃ m', nextLeft.run (m, s) = (.ok (left.head?.map Prod.fst), (m', s)) ∧
      m'.Ahead rows t u left.tail right := by
  obtain ⟨rfl, hright, hleft, hr⟩ := hahead
  obtain ⟨walk, hrun, htable, hwalk⟩ := Walk.nextKey_run h ht hleft
  exact ⟨{ m with left := walk }, by rw [nextLeft, Moving.run_part, hrun], htable, hright, hwalk, hr⟩

theorem nextRight_run (h : Tablespace.Holds tables rows s) (hu : u ∈ tables)
    (hahead : m.Ahead rows t u left right) :
    ∃ m', nextRight.run (m, s) = (.ok (right.head?.map Prod.fst), (m', s)) ∧
      m'.Ahead rows t u left right.tail := by
  obtain ⟨hleft, rfl, hl, hright⟩ := hahead
  obtain ⟨walk, hrun, htable, hwalk⟩ := Walk.nextKey_run h hu hright
  exact ⟨{ m with right := walk }, by rw [nextRight, Moving.run_part, hrun], hleft, htable, hl, hwalk⟩

/-- Moving the walk that is behind until both are at the same key or one of them has ended, however
many moves that takes. -/
inductive Aligns : (moves : Nat) → (left right : Option Entry) → Merge × Tablespace →
    Option (Entry × Entry) → Merge × Tablespace → Prop
  | noLeft {right now} : Aligns 0 none right now none now
  | noRight {left now} : Aligns 0 left none now none now
  | met {l r now} (h : l.compare r = .eq) : Aligns 0 (some l) (some r) now (some (l, r)) now
  | passLeft {moves l r left now now₁ pair now'} (h : l.compare r = .lt)
      (hmove : nextLeft.run now = (.ok left, now₁))
      (hrest : Aligns moves left (some r) now₁ pair now') :
      Aligns (moves + 1) (some l) (some r) now pair now'
  | passRight {moves l r right now now₁ pair now'} (h : l.compare r = .gt)
      (hmove : nextRight.run now = (.ok right, now₁))
      (hrest : Aligns moves (some l) right now₁ pair now') :
      Aligns (moves + 1) (some l) (some r) now pair now'

/-- Looking for the next pair comes to an end: both walks move on, and then the one that is behind
does. -/
def Finds (now : Merge × Tablespace) (pair : Option (Entry × Entry)) (now' : Merge × Tablespace) :
    Prop :=
  ∃ moves left right now₁ now₂, nextLeft.run now = (.ok left, now₁) ∧
    nextRight.run now₁ = (.ok right, now₂) ∧ Aligns moves left right now₂ pair now'

/-- A bound above the number of moves changes nothing. -/
theorem Aligns.align_run {moves fuel : Nat} {l r : Option Entry} {now now' : Merge × Tablespace}
    {pair : Option (Entry × Entry)} (h : Aligns moves l r now pair now') (hfuel : moves < fuel) :
    (align fuel l r).run now = (.ok pair, now') := by
  obtain ⟨fuel, rfl⟩ : ∃ n, fuel = n + 1 := ⟨fuel - 1, by omega⟩
  induction h generalizing fuel with
  | noLeft => rfl
  | @noRight left now => cases left <;> rfl
  | met heq =>
    simp only [align, heq]
    rfl
  | passLeft hlt hmove hrest ih =>
    obtain ⟨fuel, rfl⟩ : ∃ n, fuel = n + 1 := ⟨fuel - 1, by omega⟩
    simp only [align, hlt]
    rw [Action.run_bind_ok hmove]
    exact ih fuel (by omega)
  | passRight hgt hmove hrest ih =>
    obtain ⟨fuel, rfl⟩ : ∃ n, fuel = n + 1 := ⟨fuel - 1, by omega⟩
    simp only [align, hgt]
    rw [Action.run_bind_ok hmove]
    exact ih fuel (by omega)

/-- Walks in step align at the first pair that they meet.  Every move passes a binding. -/
theorem exists_aligns (h : Tablespace.Holds tables rows s) (ht : t ∈ tables) (hu : u ∈ tables)
    (hahead : m.Ahead rows t u left.tail right.tail) :
    ∃ moves m' more more', moves ≤ left.length + right.length ∧
      Aligns moves (left.head?.map Prod.fst) (right.head?.map Prod.fst) (m, s)
        (metKeys left right).head? (m', s) ∧
      m'.Ahead rows t u more more' ∧ pairUp more more' = (pairUp left right).tail := by
  unfold metKeys
  fun_induction pairUp left right generalizing m with
  | case1 right => exact ⟨0, m, [], right.tail, by simp, .noLeft, hahead, by simp [pairUp]⟩
  | case2 l left =>
    refine ⟨0, m, left, [], by simp, .noRight, hahead, ?_⟩
    cases left <;> simp [pairUp]
  | case3 l left r right heq ih => exact ⟨0, m, left, right, by simp, .met heq, hahead, rfl⟩
  | case4 l left r right hlt ih =>
    obtain ⟨m₁, hmove, hahead₁⟩ := nextLeft_run h ht hahead
    obtain ⟨moves, m', more, more', hmoves, haligns, hmore⟩ := ih hahead₁
    exact ⟨moves + 1, m', more, more', by simp at hmoves ⊢; omega, .passLeft hlt hmove haligns, hmore⟩
  | case5 l left r right hgt ih =>
    obtain ⟨m₁, hmove, hahead₁⟩ := nextRight_run h hu hahead
    obtain ⟨moves, m', more, more', hmoves, haligns, hmore⟩ := ih hahead₁
    exact ⟨moves + 1, m', more, more', by simp at hmoves ⊢; omega, .passRight hgt hmove haligns,
      hmore⟩

/-- The next pair is the first one that the walks meet, and the search for it ends by itself. -/
theorem nextPair_run (h : Tablespace.Holds tables rows s) (ht : t ∈ tables) (hu : u ∈ tables)
    (hahead : m.Ahead rows t u left right) :
    ∃ m' more more', nextPair.run (m, s) = (.ok (metKeys left right).head?, (m', s)) ∧
      Finds (m, s) (metKeys left right).head? (m', s) ∧
      m'.Ahead rows t u more more' ∧ pairUp more more' = (pairUp left right).tail := by
  obtain ⟨m₁, hrun₁, hahead₁⟩ := nextLeft_run h ht hahead
  obtain ⟨m₂, hrun₂, hahead₂⟩ := nextRight_run h hu hahead₁
  obtain ⟨moves, m', more, more', hmoves, haligns, hmore⟩ := exists_aligns h ht hu hahead₂
  refine ⟨m', more, more', ?_, ⟨moves, _, _, _, _, hrun₁, hrun₂, haligns⟩, hmore⟩
  have hcounts : (m₂.left.table.store s).rowCount + (m₂.right.table.store s).rowCount =
      (rows t).size + (rows u).size := by
    rw [hahead₂.leftTable, hahead₂.rightTable, h.rowCount ht, h.rowCount hu]
  have hleft := hahead.left.length_le
  have hright := hahead.right.length_le
  unfold nextPair
  rw [Action.run_bind_ok hrun₁, Action.run_bind_ok hrun₂, Action.run_bind_ok (Action.run_get _)]
  simp only [hcounts]
  exact haligns.align_run (by omega)

end Merge

namespace Join

variable {tables : List Table} {rows : Table → SortedMap Entry Row} {condition : Option Predicate}
  {j : Join} {s : Tablespace} {t u : Table} {m : Merge} {left right : List (Entry × Row)}

/-- The rows of two keys are both there. -/
theorem fetch_run (h : Tablespace.Holds tables rows s) (hapart : Table.AllApart tables)
    (ht : t ∈ tables) (hu : u ∈ tables) {k k' : Entry} {row row' : Row}
    (hrow : (rows t).get? k = some row) (hrow' : (rows u).get? k' = some row') :
    ∃ s', (fetch [(t, k), (u, k')]).run s = (.ok (some [row, row']), s') ∧
      Tablespace.Holds tables rows s' := by
  obtain ⟨s₁, hrun₁, h₁⟩ := h.find? hapart ht k
  obtain ⟨s₂, hrun₂, h₂⟩ := h₁.find? hapart hu k'
  refine ⟨s₂, ?_, h₂⟩
  rw [hrow] at hrun₁
  rw [hrow'] at hrun₂
  have hsecond : (fetch [(u, k')]).run s₁ = (.ok (some [row']), s₂) := by
    unfold fetch
    rw [Action.run_bind_ok hrun₂]
    rfl
  unfold fetch
  rw [Action.run_bind_ok hrun₁]
  simp only
  rw [Action.run_bind_ok hsecond]
  rfl

/-- One step of a join that merges two walks. -/
theorem mergeStep_run (hapart : Table.AllApart tables) (h : Over tables rows condition j s)
    (htables : tables = [t, u]) (hmerge : j.merge = some m) (hgoing : j.exhausted = false)
    (hahead : m.Ahead rows t u left right) :
    (∃ j', step.run (j, s) = (.ok .exhausted, (j', s)) ∧ j'.exhausted = true ∧
        Over tables rows condition j' s ∧ Merge.pairUp left right = []) ∨
      ∃ l r m' s' more more',
        step.run (j, s) = (.ok (.rows [l.2, r.2]), ({ j with merge := some m' }, s')) ∧
        Tablespace.Holds tables rows s' ∧ m'.Ahead rows t u more more' ∧
        Merge.pairUp left right = (l, r) :: Merge.pairUp more more' := by
  have ht : t ∈ tables := by simp [htables]
  have hu : u ∈ tables := by simp [htables]
  obtain ⟨m', more, more', hpair, -, hahead', hmore⟩ := Merge.nextPair_run h.holds ht hu hahead
  have hpart : (Moving.part (fun _ => m) (fun moved j => { j with merge := some moved })
      Merge.nextPair : Moving Join _).run (j, s) =
        (.ok (Merge.metKeys left right).head?, ({ j with merge := some m' }, s)) := by
    rw [Moving.run_part, hpair]
  have hstep : step.run (j, s) = (mergeStep m).run (j, s) := by
    unfold step
    rw [Action.run_bind_ok (Moving.run_mover j s)]
    simp only [hgoing, hmerge, Bool.false_eq_true, if_false]
  unfold mergeStep at hstep
  rw [Action.run_bind_ok hpart, Merge.metKeys] at hstep
  cases hpairs : Merge.pairUp left right with
  | nil =>
    rw [hpairs] at hstep
    exact .inl ⟨_, hstep, rfl, ⟨h.tables_eq, h.condition_eq, h.holds⟩, rfl⟩
  | cons pair later =>
    obtain ⟨⟨k, row⟩, k', row'⟩ := pair
    rw [hpairs] at hstep hmore
    -- both keys are still there, as walking changes no contents
    obtain ⟨hl, hr⟩ := Merge.mem_of_mem_pairUp (hpairs ▸ List.mem_cons_self)
    have hrow := SortedMap.get?_of_mem (Entry.orderedOn_fits _) (h.holds.ascending ht)
      (hahead.left.mem hl)
    have hrow' := SortedMap.get?_of_mem (Entry.orderedOn_fits _) (h.holds.ascending hu)
      (hahead.right.mem hr)
    obtain ⟨s', hfetch, hholds⟩ := fetch_run h.holds hapart ht hu hrow hrow'
    refine .inr ⟨(k, row), (k', row'), m', s', more, more', ?_, hholds, hahead', by rw [hmore]; rfl⟩
    have hstill : (Moving.still (fetch [(t, k), (u, k')]) : Moving Join _).run
        ({ j with merge := some m' }, s) =
          (.ok (some [row, row']), ({ j with merge := some m' }, s')) := by
      rw [Moving.run_still, hfetch]
    have hzip : j.tables.zip [k, k'] = [(t, k), (u, k')] := by rw [h.tables_eq, htables]; rfl
    rw [hstep]
    simp only [List.map_cons, List.head?_cons, Prod.map_apply]
    rw [Action.run_bind_ok (Moving.run_mover _ s), hzip, Action.run_bind_ok hstill]
    rfl

/-- A join of two tables that merges their walks makes the pairs that the walks meet. -/
theorem makes_merge (hapart : Table.AllApart tables) (htables : tables = [t, u])
    (hmerge : j.merge = some m) (hgoing : j.exhausted = false)
    (hahead : m.Ahead rows t u left right) :
    Makes tables rows condition j
      ((Merge.pairUp left right).map fun pair => some [pair.1.2, pair.2.2]) := by
  induction hpairs : Merge.pairUp left right generalizing j m left right with
  | nil =>
    intro s hover
    rcases mergeStep_run hapart hover htables hmerge hgoing hahead with
      ⟨j', hstep, hexhausted, hover', -⟩ | ⟨row, row', m', s', more, more', -, -, -, hmore⟩
    · exact ⟨j', s, hstep, hover', hexhausted⟩
    · rw [hpairs] at hmore
      cases hmore
  | cons made later ih =>
    intro s hover
    rcases mergeStep_run hapart hover htables hmerge hgoing hahead with
      ⟨j', -, -, -, hnone⟩ | ⟨row, row', m', s', more, more', hstep, hholds, hahead', hmore⟩
    · rw [hpairs] at hnone
      cases hnone
    · obtain ⟨rfl, hlater⟩ := List.cons.inj (hpairs.symm.trans hmore)
      exact ⟨_, s', hstep, ⟨hover.tables_eq, hover.condition_eq, hholds⟩,
        ih rfl hgoing hahead' hlater.symm⟩

end Join

end PageDb
