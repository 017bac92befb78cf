import PageDb.Proofs.Query.Odometer
import PageDb.Proofs.Query.Separation
import PageDb.Proofs.Table.Calls
import PageDb.Proofs.Table.Progress

/-!
A join that makes no row is exhausted.

Making a row tries as many combinations as there can be.  `Join.outstanding` counts those that may
still come, whether their rows can be read or not: every step that does not end the join lowers it, and
it starts out below the number of tries.  So the tries never run out before the join has ended.
-/

namespace PageDb

open Moving (Beside)

/-! ## Walks in step -/

namespace Merge

open Tablespace (Keyed)

variable {keys : Table → List Entry} {tables : List Table} {s : Tablespace} {m : Merge}

/-- Walks through some tables. -/
def Through (tables : List Table) (m : Merge) : Prop :=
  m.left.table ∈ tables ∧ m.right.table ∈ tables

/-- Merging has gone on: the left walk is no further from its end. -/
structure Onward (keys : Table → List Entry) (tables : List Table) (m : Merge)
    (now : Merge × Tablespace) : Prop where
  keyed : now.2.Keyed keys
  through : now.1.Through tables
  le : now.1.left.left keys ≤ m.left.left keys

theorem Onward.refl (hm : m.Through tables) (hs : s.Keyed keys) : Onward keys tables m (m, s) :=
  ⟨hs, hm, Nat.le_refl _⟩

theorem Onward.trans {m' : Merge} {now : Merge × Tablespace} (h : Onward keys tables m (m', s))
    (h' : Onward keys tables m' now) : Onward keys tables m now :=
  ⟨h'.keyed, h'.through, Nat.le_trans h'.le h.le⟩

/-- Merging has gone on, and if it has given out something the left walk is nearer to its end. -/
def Nearer {α : Type} (keys : Table → List Entry) (tables : List Table) (m : Merge)
    (given : Option α) (now : Merge × Tablespace) : Prop :=
  Onward keys tables m now ∧ (given.isSome = true → now.1.left.left keys < m.left.left keys)

variable (hkeys : Table.InOrder tables keys)
include hkeys

theorem leads_nextLeft (hm : m.Through tables) (hs : s.Keyed keys) :
    nextLeft.Leads (m, s) (Nearer keys tables m) (Onward keys tables m) := by
  refine (Moving.leads_part (Walk.leads_nextKey hkeys hm.1 hs) ?_).mono ?_ fun _ h => h
  · rintro moved s' ⟨hkeyed, htable, hle⟩
    exact ⟨hkeyed, ⟨htable ▸ hm.1, hm.2⟩, hle⟩
  · rintro given ⟨_, s'⟩ ⟨moved, rfl, ⟨hkeyed, htable, hle⟩, hlt⟩
    exact ⟨⟨hkeyed, ⟨htable ▸ hm.1, hm.2⟩, hle⟩, hlt⟩

theorem leads_nextRight (hm : m.Through tables) (hs : s.Keyed keys) :
    nextRight.Leads (m, s) (fun _ => Onward keys tables m) (Onward keys tables m) := by
  refine (Moving.leads_part (Walk.leads_nextKey hkeys hm.2 hs) ?_).mono ?_ fun _ h => h
  · rintro moved s' ⟨hkeyed, htable, -⟩
    exact ⟨hkeyed, ⟨hm.1, htable ▸ hm.2⟩, Nat.le_refl _⟩
  · rintro given ⟨_, s'⟩ ⟨moved, rfl, ⟨hkeyed, htable, -⟩, -⟩
    exact ⟨hkeyed, ⟨hm.1, htable ▸ hm.2⟩, Nat.le_refl _⟩

theorem leads_align (hm : m.Through tables) (hs : s.Keyed keys) (fuel : Nat)
    (left right : Option Entry) :
    (align fuel left right).Leads (m, s) (fun _ => Onward keys tables m) (Onward keys tables m) := by
  induction fuel generalizing m s left right with
  | zero => exact .pure (.refl hm hs)
  | succ fuel ih =>
    cases left with
    | none => exact .pure (.refl hm hs)
    | some l =>
      cases right with
      | none => exact .pure (.refl hm hs)
      | some r =>
        -- passing a key of either table brings the left walk no further from its end
        have hrest {m' : Merge} {s' : Tablespace} (h : Onward keys tables m (m', s'))
            (left right : Option Entry) :
            (align fuel left right).Leads (m', s') (fun _ => Onward keys tables m)
              (Onward keys tables m) :=
          (ih h.through h.keyed left right).mono (fun _ _ => h.trans) fun _ => h.trans
        rw [align]
        cases l.compare r with
        | eq => exact .pure (.refl hm hs)
        | lt => exact .bind (leads_nextLeft hkeys hm hs) fun next _ h => hrest h.1 next (some r)
        | gt => exact .bind (leads_nextRight hkeys hm hs) fun next _ h => hrest h (some l) next

/-- A pair needs a key of the left table. -/
theorem leads_nextPair (hm : m.Through tables) (hs : s.Keyed keys) :
    nextPair.Leads (m, s) (Nearer keys tables m) (Onward keys tables m) := by
  refine .bind (leads_nextLeft hkeys hm hs) ?_
  rintro left ⟨m₁, s₁⟩ ⟨h₁, hlt⟩
  refine .bind ((leads_nextRight hkeys h₁.through h₁.keyed).mono (fun _ _ h => h) fun _ => h₁.trans) ?_
  rintro right ⟨m₂, s₂⟩ h₂
  refine .bind_ok (Action.run_get _) ?_
  have halign := leads_align hkeys h₂.through h₂.keyed
    ((m₂.left.table.store s₂).rowCount + (m₂.right.table.store s₂).rowCount + 2) left right
  cases left with
  | none => exact .pure ⟨h₁.trans h₂, nofun⟩
  | some l =>
    have hlt' : m₂.left.left keys < m.left.left keys := Nat.lt_of_le_of_lt h₂.le (hlt rfl)
    exact halign.mono
      (fun _ _ h => ⟨(h₁.trans h₂).trans h, fun _ => Nat.lt_of_le_of_lt h.le hlt'⟩)
      fun _ h => (h₁.trans h₂).trans h

end Merge

/-! ## Counting combinations -/

namespace Join

open Tablespace (Keyed)

variable {keys : Table → List Entry} {tables : List Table} {s : Tablespace} {j j' : Join} {i : Nat}

/-- A join of the given tables, with its walks in them. -/
structure Formed (tables : List Table) (j : Join) : Prop where
  tables_eq : j.tables = tables
  walks : ∀ i walk, j.walk? i = some walk → tables[i]? = some walk.table
  merge : ∀ m, j.merge = some m → m.Through tables

/-- How many rows of the table at a place there are, and one more. -/
def base (keys : Table → List Entry) (tables : List Table) (i : Nat) : Nat :=
  ((tables[i]?).map fun t => (keys t).length).getD 0 + 1

/-- How many combinations of rows of the tables below a place there are at most. -/
def span (keys : Table → List Entry) (tables : List Table) : Nat → Nat
  | 0 => 1
  | i + 1 => span keys tables i * base keys tables i

/-- How many keys the walk at a place has left. -/
def digit (keys : Table → List Entry) (j : Join) (i : Nat) : Nat :=
  ((j.walk? i).map fun walk => walk.left keys).getD 0

/-- How many combinations the places below `i` may yet come to: a number with one digit for each of
them. -/
def ahead (keys : Table → List Entry) (j : Join) : Nat → Nat
  | 0 => 0
  | i + 1 => ahead keys j i * base keys j.tables i + digit keys j i

/-- How many combinations may still come. -/
def outstanding (keys : Table → List Entry) (j : Join) : Nat :=
  match j.merge with
  | some m => m.left.left keys
  | none =>
    if j.seeded then ahead keys j j.tables.length else span keys j.tables j.tables.length

theorem Formed.digit_lt (h : j.Formed tables) (keys : Table → List Entry) (i : Nat) :
    digit keys j i < base keys j.tables i := by
  rw [digit, base, h.tables_eq]
  cases hwalk : j.walk? i with
  | none => exact Nat.succ_pos _
  | some walk =>
    rw [h.walks i walk hwalk]
    exact Nat.lt_succ_of_le (walk.left_le keys)

/-- A number with more in front is the larger one. -/
theorem place_lt {a b m c d : Nat} (h : a < b) (hc : c < m) : a * m + c < b * m + d := by
  have hstep : (a + 1) * m ≤ b * m := Nat.mul_le_mul_right m h
  rw [Nat.add_one_mul] at hstep
  omega

theorem Formed.ahead_lt_span (h : j.Formed tables) (keys : Table → List Entry) (i : Nat) :
    ahead keys j i < span keys j.tables i := by
  induction i with
  | zero => exact Nat.one_pos
  | succ i ih => exact place_lt (d := 0) ih (h.digit_lt keys i)

theorem base_le_span {n : Nat} (h : i < n) : base keys tables i ≤ span keys tables n := by
  have hpos (k : Nat) : 0 < span keys tables k := by
    induction k with
    | zero => exact Nat.one_pos
    | succ k ih => exact Nat.mul_pos ih (Nat.succ_pos _)
  induction n with
  | zero => cases h
  | succ n ih =>
    rcases Nat.lt_succ_iff_lt_or_eq.1 h with hlt | rfl
    · exact Nat.le_trans (ih hlt) (Nat.le_mul_of_pos_right _ (Nat.succ_pos _))
    · exact Nat.le_mul_of_pos_left _ (hpos i)

/-- As many combinations are tried as there can be, and one more. -/
theorem combinations_eq_span (j : Join) (hs : s.Keyed keys) :
    j.combinations s = span keys j.tables j.tables.length + 1 := by
  have hspan (n : Nat) :
      ((j.tables.take n).map fun t => (keys t).length + 1).foldl (· * ·) 1 =
        span keys j.tables n := by
    induction n with
    | zero => rfl
    | succ n ih =>
      rw [List.take_add_one, List.map_append, List.foldl_append, ih, span, base]
      cases j.tables[n]? <;> simp
  have hcounts : (j.tables.map fun t => (t.store s).rowCount + 1) =
      j.tables.map fun t => (keys t).length + 1 :=
    List.map_congr_left fun t _ => by rw [hs.rowCount t]
  rw [combinations, hcounts, ← hspan, List.take_length]

theorem Formed.outstanding_le (h : j.Formed tables) (keys : Table → List Entry) :
    j.outstanding keys ≤ span keys j.tables j.tables.length := by
  unfold outstanding
  split
  · rename_i m hm
    -- every pair needs a key of the left table, which is one of the tables
    obtain ⟨i, hi, htable⟩ := List.mem_iff_getElem.1 (h.merge m hm).1
    have hbase : (keys m.left.table).length < base keys j.tables i := by
      rw [base, h.tables_eq, List.getElem?_eq_getElem hi, htable]
      exact Nat.lt_succ_self _
    have hspan : base keys j.tables i ≤ span keys j.tables j.tables.length :=
      base_le_span (h.tables_eq ▸ hi)
    have hleft := m.left.left_le keys
    omega
  · split
    · exact Nat.le_of_lt (h.ahead_lt_span keys _)
    · exact Nat.le_refl _

/-- Fewer combinations below a place are fewer combinations up to it, wherever the place itself is. -/
theorem Formed.ahead_succ_lt (h' : j'.Formed tables) (h : j.Formed tables)
    (hlt : ahead keys j' i < ahead keys j i) : ahead keys j' (i + 1) < ahead keys j (i + 1) := by
  have hdigit := h'.digit_lt keys i
  rw [h'.tables_eq] at hdigit
  rw [ahead, ahead, h'.tables_eq, h.tables_eq]
  exact place_lt hlt hdigit

/-- What does not move is counted as before. -/
theorem ahead_congr (htables : j'.tables = j.tables) (hwalks : ∀ k < i, j'.walk? k = j.walk? k) :
    ahead keys j' i = ahead keys j i := by
  induction i with
  | zero => rfl
  | succ i ih =>
    rw [ahead, ahead, ih fun k hk => hwalks k (by omega), htables, digit, digit, hwalks i (by omega)]

/-! ## Turning -/

theorem Formed.withRow (h : j.Formed tables) (i : Nat) (row : Row) : (j.withRow i row).Formed tables :=
  ⟨h.tables_eq, h.walks, h.merge⟩

theorem Formed.withWalk (h : j.Formed tables) {walk : Walk} (ht : tables[i]? = some walk.table) :
    (j.withWalk i walk).Formed tables := by
  refine ⟨h.tables_eq, fun k w hw => ?_, h.merge⟩
  by_cases hk : k = i
  · subst hk
    simp only [walk?, Join.withWalk, List.getElem?_set_self'] at hw
    cases hplace : j.walks[k]? with
    | none => simp [hplace] at hw
    | some old =>
      obtain rfl : walk = w := by simpa [hplace] using hw
      exact ht
  · exact h.walks k w (by rwa [walk?_withWalk_of_ne hk] at hw)

/-- A join has gone on: some of its walks have moved, within their tables. -/
structure Turned (keys : Table → List Entry) (tables : List Table) (moves : Nat → Prop) (j : Join)
    (now : Join × Tablespace) : Prop where
  formed : now.1.Formed tables
  keyed : now.2.Keyed keys
  merge : now.1.merge = j.merge
  seeded : now.1.seeded = j.seeded
  walks : ∀ k, ¬ moves k → now.1.walk? k = j.walk? k

namespace Turned

variable {moves moves' : Nat → Prop} {now : Join × Tablespace}

theorem refl (hj : j.Formed tables) (hs : s.Keyed keys) (moves : Nat → Prop) :
    Turned keys tables moves j (j, s) :=
  ⟨hj, hs, rfl, rfl, fun _ _ => rfl⟩

theorem trans (h : Turned keys tables moves j (j', s)) (h' : Turned keys tables moves' j' now) :
    Turned keys tables (fun k => moves k ∨ moves' k) j now :=
  ⟨h'.formed, h'.keyed, h'.merge.trans h.merge, h'.seeded.trans h.seeded, fun k hk =>
    (h'.walks k fun hmoved => hk (.inr hmoved)).trans (h.walks k fun hmoved => hk (.inl hmoved))⟩

theorem mono (h : Turned keys tables moves j now) (hmoves : ∀ k, moves k → moves' k) :
    Turned keys tables moves' j now :=
  ⟨h.formed, h.keyed, h.merge, h.seeded, fun k hk => h.walks k fun hmoved => hk (hmoves k hmoved)⟩

theorem beside (h : Turned keys tables moves j now) : Beside (Formed tables) (Keyed keys) now :=
  ⟨h.formed, h.keyed⟩

theorem withRow (h : Turned keys tables moves j (j', s)) (i : Nat) (row : Row) :
    Turned keys tables moves j (j'.withRow i row, s) :=
  ⟨h.formed.withRow i row, h.keyed, h.merge, h.seeded, h.walks⟩

/-- What is below a place that has moved is counted as before. -/
theorem ahead_eq (h : Turned keys tables (· = i) j now) (hj : j.Formed tables) :
    ahead keys now.1 i = ahead keys j i :=
  ahead_congr (h.formed.tables_eq.trans hj.tables_eq.symm) fun k hk => h.walks k (by omega)

end Turned

section Turning

variable (hkeys : Table.InOrder tables keys)
include hkeys

/-- One walk moves. -/
theorem leads_pull (hj : j.Formed tables) (hs : s.Keyed keys) {walk : Walk}
    (hwalk : j.walk? i = some walk) :
    (pull i walk).Leads (j, s)
      (fun row now => Turned keys tables (· = i) j now ∧
        (row.isSome = true → digit keys now.1 i < digit keys j i))
      (Beside (Formed tables) (Keyed keys)) := by
  have ht := hj.walks i walk hwalk
  have hin : walk.table ∈ tables := List.mem_of_getElem? ht
  have hturned {moved : Walk} {s' : Tablespace} (h : Walk.Onward keys walk (moved, s')) :
      Turned keys tables (· = i) j (j.withWalk i moved, s') :=
    ⟨hj.withWalk (h.table.symm ▸ ht), h.keyed, rfl, rfl, fun k hk => walk?_withWalk_of_ne hk moved⟩
  refine (Moving.leads_part (Walk.leads_nextRow hkeys hin hs) fun _ _ h => (hturned h).beside).mono ?_
    fun _ h => h
  rintro row ⟨_, s'⟩ ⟨moved, rfl, honward, hlt⟩
  refine ⟨hturned honward, fun hrow => ?_⟩
  simp only [digit, hwalk, walk?_withWalk_self hwalk]
  exact hlt hrow

/-- A walk starts again. -/
theorem leads_restart (hj : j.Formed tables) (hs : s.Keyed keys) {t : Table}
    (ht : tables[i]? = some t) :
    (restart i t).Leads (j, s) (fun _ => Turned keys tables (· = i) j)
      (Beside (Formed tables) (Keyed keys)) := by
  have honward : Walk.Onward keys t.walk (Walk.nextRow.run (t.walk, s)).2 :=
    (Walk.leads_nextRow hkeys (List.mem_of_getElem? ht) hs).after fun _ _ h => h.1
  have hbeside : (Join.beside t.walk).Leads (j, s)
      (fun found now => found.2.table = t ∧ j = now.1 ∧ now.2.Keyed keys)
      (Beside (Formed tables) (Keyed keys)) := ⟨honward.table, rfl, honward.keyed⟩
  rw [restart_eq]
  refine .bind hbeside ?_
  rintro ⟨result, walk⟩ ⟨_, s'⟩ ⟨htable, rfl, hs'⟩
  refine .bind (.lift (Q := fun _ now => now = (j, s')) (fun _ _ => rfl) ⟨hj, hs'⟩) ?_
  rintro found _ rfl
  cases found with
  | none => exact .pure (.refl hj hs' _)
  | some row =>
    have hmoved : Turned keys tables (· = i) j ((j.withRow i row).withWalk i walk, s') :=
      ⟨(hj.withRow i row).withWalk (htable.symm ▸ ht), hs', rfl, rfl,
        fun k hk => walk?_withWalk_of_ne hk walk⟩
    exact .bind_ok (run_update _ _ _) (.pure hmoved)

/-- Moving on to another combination leaves fewer of them. -/
theorem leads_advance (hj : j.Formed tables) (hs : s.Keyed keys) (i : Nat) :
    (advance i).Leads (j, s)
      (fun moved now => Turned keys tables (· < i) j now ∧
        (moved = true → ahead keys now.1 i < ahead keys j i))
      (Beside (Formed tables) (Keyed keys)) := by
  induction i generalizing j s with
  | zero => exact .pure ⟨.refl hj hs _, nofun⟩
  | succ i ih =>
    refine .bind_ok (Moving.run_mover _ _) ?_
    cases hwalk : j.walk? i with
    | none =>
      refine (ih hj hs).mono ?_ fun _ h => h
      rintro moved now ⟨h₁, hlt⟩
      exact ⟨h₁.mono fun k hk => Nat.lt_succ_of_lt hk,
        fun hmoved => h₁.formed.ahead_succ_lt hj (hlt hmoved)⟩
    | some walk =>
      have ht : tables[i]? = some walk.table := hj.walks i walk hwalk
      have hhere : ∀ k, k = i → k < i + 1 := fun k hk => hk ▸ Nat.lt_succ_self k
      simp only [hj.tables_eq, ht]
      refine .bind (leads_pull hkeys hj hs hwalk) ?_
      rintro row ⟨j₁, s₁⟩ ⟨h₁, hlt⟩
      cases row with
      | some row =>
        -- the digit of this place is smaller and those below are as they were
        refine .bind_ok (run_update _ _ _) (.pure ⟨(h₁.mono hhere).withRow i row, fun _ => ?_⟩)
        have hrow : ahead keys (j₁.withRow i row) (i + 1) = ahead keys j₁ (i + 1) :=
          ahead_congr rfl fun _ _ => rfl
        rw [hrow, ahead, ahead, h₁.ahead_eq hj, h₁.formed.tables_eq, hj.tables_eq]
        exact Nat.add_lt_add_left (hlt rfl) _
      | none =>
        dsimp only
        split
        · -- this walk starts again, which counts for less than one step below it
          refine .bind (leads_restart hkeys h₁.formed h₁.keyed ht) ?_
          rintro restarted ⟨j₂, s₂⟩ h₂
          have h₁₂ : Turned keys tables (· = i) j (j₂, s₂) := (h₁.trans h₂).mono fun _ => or_self_iff.1
          cases restarted with
          | false => exact .pure ⟨h₁₂.mono hhere, nofun⟩
          | true =>
            refine (ih h₂.formed h₂.keyed).mono ?_ fun _ h => h
            rintro moved now ⟨h₃, hlt₃⟩
            have hsplit : ∀ k, k = i ∨ k < i → k < i + 1 := fun k hk => by omega
            exact ⟨(h₁₂.trans h₃).mono hsplit,
              fun hmoved => h₃.formed.ahead_succ_lt hj (h₁₂.ahead_eq hj ▸ hlt₃ hmoved)⟩
        · exact .pure ⟨h₁.mono hhere, nofun⟩

/-- The first rows are taken. -/
theorem leads_seed (hj : j.Formed tables) (hs : s.Keyed keys) (count i : Nat) :
    (seed count i).Leads (j, s) (fun _ => Turned keys tables (fun _ => True) j)
      (Beside (Formed tables) (Keyed keys)) := by
  induction count generalizing i j s with
  | zero => exact .pure (.refl hj hs _)
  | succ count ih =>
    refine .bind_ok (Moving.run_mover _ _) ?_
    cases hwalk : j.walk? i with
    | none => exact ih hj hs (i + 1)
    | some walk =>
      refine .bind (leads_pull hkeys hj hs hwalk) ?_
      rintro row ⟨j₁, s₁⟩ ⟨h₁, -⟩
      cases row with
      | none => exact .pure (h₁.mono fun _ _ => trivial)
      | some row =>
        have h₂ := h₁.withRow i row
        exact .bind_ok (run_update _ _ _) ((ih h₂.formed h₂.keyed (i + 1)).mono
          (fun _ _ h => (h₂.trans h).mono fun _ _ => trivial) fun _ h => h)

end Turning

/-! ## Steps -/

theorem keeps_fetch (pairs : List (Table × Entry)) :
    Action.Keeps (Keyed keys) (fetch pairs) fun _ => True := by
  induction pairs with
  | nil => exact .pure trivial
  | cons pair rest ih =>
    refine .bind (Keyed.keeps_find? pair.1 pair.2) fun found _ => ?_
    cases found with
    | none => exact .pure trivial
    | some row => exact .bind ih fun _ _ => .pure trivial

theorem currentRows_ne_exhausted (j : Join) : j.currentRows ≠ .exhausted := by
  unfold currentRows
  split <;> exact nofun

/-- What a step of a join may come to: the join is exhausted, or less remains of it. -/
structure Stepped (keys : Table → List Entry) (tables : List Table) (j : Join) (made : Combination)
    (now : Join × Tablespace) : Prop where
  formed : now.1.Formed tables
  keyed : now.2.Keyed keys
  ended : made = .exhausted → now.1.exhausted = true
  fewer : made ≠ .exhausted → outstanding keys now.1 < outstanding keys j

/-- A combination has been found after the walks have moved. -/
theorem Stepped.of_turned {moves : Nat → Prop} {now : Join × Tablespace}
    (h : Turned keys tables moves j now) {made : Combination} (hmade : made ≠ .exhausted)
    (hfewer : outstanding keys now.1 < outstanding keys j') : Stepped keys tables j' made now :=
  ⟨h.formed, h.keyed, fun hended => absurd hended hmade, fun _ => hfewer⟩

theorem leads_finish (hj : j.Formed tables) (hs : s.Keyed keys) :
    finish.Leads (j, s) (Stepped keys tables j') (Beside (Formed tables) (Keyed keys)) :=
  .bind_ok (run_update _ _ _) (.pure ⟨⟨hj.tables_eq, hj.walks, hj.merge⟩, hs, fun _ => rfl,
    fun hnot => absurd rfl hnot⟩)

/-- Looking a row up moves no walk. -/
theorem leads_lookupStep (hj : j.Formed tables) (hs : s.Keyed keys) (target source column : Nat) :
    (lookupStep target source column).Leads (j, s)
      (fun made now => made ≠ .exhausted ∧ Turned keys tables (fun _ => False) j now)
      (Beside (Formed tables) (Keyed keys)) := by
  have hhere : Turned keys tables (fun _ => False) j (j, s) := .refl hj hs _
  refine .bind_ok (Moving.run_mover _ _) ?_
  split
  · rename_i row table _ _
    refine .bind (Moving.leads_still (.of_keeps (Keyed.keeps_find? table _) hs)
      fun s' hs' => ⟨hj, hs'⟩) ?_
    rintro found ⟨_, s'⟩ ⟨rfl, -, hs'⟩
    have hafter : Turned keys tables (fun _ => False) j (j, s') := .refl hj hs' _
    cases found with
    | none => exact .pure ⟨nofun, hafter⟩
    | some found =>
      exact .bind_ok (run_update _ _ _) (.bind_ok (Moving.run_mover _ _)
        (.pure ⟨currentRows_ne_exhausted _, hafter.withRow target found⟩))
  · exact .pure ⟨nofun, hhere⟩

/-- When walks have moved, the rows that they are at may be shown. -/
theorem leads_show (hj : j.Formed tables) (hs : s.Keyed keys) (hm : j.merge = none)
    (hseeded : j.seeded = true) (hfewer : ahead keys j j.tables.length < outstanding keys j')
    (plan : JoinPlan) :
    (match plan with
      | .lookup target source column => lookupStep target source column
      | _ => do return (← Moving.mover).currentRows : Moving Join Combination).Leads (j, s)
      (Stepped keys tables j') (Beside (Formed tables) (Keyed keys)) := by
  have hstepped {made : Combination} {now : Join × Tablespace} (hmade : made ≠ .exhausted)
      (h : Turned keys tables (fun _ => False) j now) : Stepped keys tables j' made now := by
    refine .of_turned h hmade ?_
    have htables : now.1.tables = j.tables := h.formed.tables_eq.trans hj.tables_eq.symm
    simp only [outstanding, h.merge, hm, h.seeded, hseeded, if_true, htables]
    rw [ahead_congr htables fun k _ => h.walks k id]
    exact hfewer
  cases plan with
  | lookup target source column =>
    exact (leads_lookupStep hj hs target source column).mono (fun _ _ h => hstepped h.1 h.2)
      fun _ h => h
  | product =>
    exact .bind_ok (Moving.run_mover _ _) (.pure (hstepped (currentRows_ne_exhausted j) (.refl hj hs _)))
  | merge =>
    exact .bind_ok (Moving.run_mover _ _) (.pure (hstepped (currentRows_ne_exhausted j) (.refl hj hs _)))

/-- What making a row may come to: if there is none the join is exhausted. -/
def Made (keys : Table → List Entry) (tables : List Table) (row : Option JointRow)
    (now : Join × Tablespace) : Prop :=
  Beside (Formed tables) (Keyed keys) now ∧ (row = none → now.1.exhausted = true)

section Stepping

variable (hkeys : Table.InOrder tables keys)
include hkeys

theorem leads_mergeStep (hj : j.Formed tables) (hs : s.Keyed keys) {m : Merge}
    (hm : j.merge = some m) :
    (mergeStep m).Leads (j, s) (Stepped keys tables j) (Beside (Formed tables) (Keyed keys)) := by
  have hformed {moved : Merge} (h : moved.Through tables) :
      Formed tables { j with merge := some moved } :=
    ⟨hj.tables_eq, hj.walks, fun _ heq => Option.some.inj heq ▸ h⟩
  refine .bind (Moving.leads_part (Merge.leads_nextPair hkeys (hj.merge m hm) hs)
    fun moved s' h => ⟨hformed h.through, h.keyed⟩) ?_
  rintro pair ⟨_, s₁⟩ ⟨moved, rfl, h₁, hlt⟩
  cases pair with
  | none => exact leads_finish (hformed h₁.through) h₁.keyed
  | some pair =>
    have hfewer : outstanding keys { j with merge := some moved } < outstanding keys j := by
      simp only [outstanding, hm]
      exact hlt rfl
    refine .bind_ok (Moving.run_mover _ _) (.bind (Moving.leads_still (.of_keeps (keeps_fetch _) h₁.keyed)
      fun s₂ hs₂ => ⟨hformed h₁.through, hs₂⟩) ?_)
    rintro found ⟨_, s₂⟩ ⟨rfl, -, hs₂⟩
    have hafter : Turned keys tables (fun _ => False) _ ({ j with merge := some moved }, s₂) :=
      .refl (hformed h₁.through) hs₂ _
    cases found with
    | none => exact .pure (.of_turned hafter nofun hfewer)
    | some rows => exact .pure (.of_turned hafter nofun hfewer)

theorem leads_walkStep (hj : j.Formed tables) (hs : s.Keyed keys) (hm : j.merge = none) :
    walkStep.Leads (j, s) (Stepped keys tables j) (Beside (Formed tables) (Keyed keys)) := by
  refine .bind_ok (Moving.run_mover _ _) ?_
  dsimp only
  split
  · rename_i hseeded
    refine .bind (leads_advance hkeys hj hs j.tables.length) ?_
    rintro advanced ⟨j₁, s₁⟩ ⟨h₁, hlt⟩
    cases advanced with
    | false => exact leads_finish h₁.formed h₁.keyed
    | true =>
      have htables : j₁.tables = j.tables := h₁.formed.tables_eq.trans hj.tables_eq.symm
      refine leads_show h₁.formed h₁.keyed (h₁.merge.trans hm) (h₁.seeded.trans hseeded) ?_ j.plan
      simp only [outstanding, hm, hseeded, if_true, htables]
      exact hlt rfl
  · rename_i hseeded
    -- from the first combination on the walks tell how many are left
    have hstart : Formed tables { j with seeded := true } := ⟨hj.tables_eq, hj.walks, hj.merge⟩
    refine .bind_ok (run_update _ _ _) (.bind (leads_seed hkeys hstart hs j.tables.length 0) ?_)
    rintro advanced ⟨j₁, s₁⟩ h₁
    cases advanced with
    | false => exact leads_finish h₁.formed h₁.keyed
    | true =>
      have htables : j₁.tables = j.tables := h₁.formed.tables_eq.trans hj.tables_eq.symm
      refine leads_show h₁.formed h₁.keyed (h₁.merge.trans hm) h₁.seeded ?_ j.plan
      simp only [outstanding, hm, hseeded]
      exact htables ▸ h₁.formed.ahead_lt_span keys j₁.tables.length

theorem leads_step (hj : j.Formed tables) (hs : s.Keyed keys) :
    step.Leads (j, s) (Stepped keys tables j) (Beside (Formed tables) (Keyed keys)) := by
  refine .bind_ok (Moving.run_mover _ _) ?_
  split
  · rename_i hended
    exact .pure ⟨hj, hs, fun _ => hended, fun hnot => absurd rfl hnot⟩
  · cases hm : j.merge with
    | some m => exact leads_mergeStep hkeys hj hs hm
    | none => exact leads_walkStep hkeys hj hs hm

/-- With as many tries as combinations remain and one more, a join that makes no row is exhausted. -/
theorem leads_produceWithin (hj : j.Formed tables) (hs : s.Keyed keys) (p : Option Predicate)
    {fuel : Nat} (hfuel : outstanding keys j < fuel) :
    (produceWithin p fuel).Leads (j, s) (Made keys tables)
      (Beside (Formed tables) (Keyed keys)) := by
  induction fuel generalizing j s with
  | zero => exact absurd hfuel (Nat.not_lt_zero _)
  | succ fuel ih =>
    refine .bind (leads_step hkeys hj hs) ?_
    rintro made ⟨j', s'⟩ ⟨hj', hs', hended, hfewer⟩
    cases made with
    | exhausted => exact .pure ⟨⟨hj', hs'⟩, fun _ => hended rfl⟩
    | discarded =>
      have hless : outstanding keys j' < outstanding keys j := hfewer nofun
      exact ih hj' hs' (Nat.lt_of_lt_of_le hless (Nat.le_of_lt_succ hfuel))
    | rows rows =>
      have hless : outstanding keys j' < outstanding keys j := hfewer nofun
      have hrest := ih hj' hs' (Nat.lt_of_lt_of_le hless (Nat.le_of_lt_succ hfuel))
      -- a condition that fails on the row ends the call, but moves nothing
      have hcheck {p : Option Predicate} {row : JointRow}
          {next : Bool → Moving Join (Option JointRow)}
          (h : ∀ b, (next b).Leads (j', s') (Made keys tables) (Beside (Formed tables) (Keyed keys))) :
          ((liftM (Predicate.accepts p row) : Moving Join Bool) >>= next).Leads (j', s')
            (Made keys tables) (Beside (Formed tables) (Keyed keys)) :=
        .bind (.lift (Q := fun _ now => now = (j', s')) (fun _ _ => rfl) ⟨hj', hs'⟩)
          fun b now hnow => hnow ▸ h b
      refine .bind_ok (Moving.run_mover _ _) (hcheck fun accepted => ?_)
      split
      · refine hcheck fun accepted => ?_
        split
        · exact .pure ⟨⟨hj', hs'⟩, nofun⟩
        · exact hrest
      · exact hrest

/-- A join that makes no row is exhausted, and joins and tables stay as they should be. -/
theorem leads_produce (hj : j.Formed tables) (hs : s.Keyed keys) (p : Option Predicate) :
    (produce p).Leads (j, s) (Made keys tables) (Beside (Formed tables) (Keyed keys)) := by
  refine .bind_ok (Action.run_get _) ?_
  have hle := hj.outstanding_le keys
  exact leads_produceWithin hkeys hj hs p (by rw [combinations_eq_span j hs]; omega)

end Stepping

/-- A join that is exhausted makes no row. -/
theorem produce_of_exhausted (h : j.exhausted = true) (p : Option Predicate) (s : Tablespace) :
    (produce p).run (j, s) = (.ok none, (j, s)) := by
  have hstep : step.run (j, s) = (.ok .exhausted, (j, s)) := by
    unfold step
    rw [Action.run_bind_ok (Moving.run_mover j s), if_pos h]
    rfl
  unfold produce
  rw [Action.run_bind_ok (Action.run_get (j, s))]
  dsimp only [combinations, produceWithin]
  rw [Action.run_bind_ok hstep]
  rfl

end Join

end PageDb
