import PageDb.Proofs.Table.Standing

/-!
Walks through a table whose contents do not change.

A walk gives out the bindings of the table one after the other.  `Walk.Ahead` says which of them are
still to come.
-/

namespace PageDb

/-! ## Running what moves -/

namespace Moving

variable {σ τ α : Type}

theorem run_still (action : Action Tablespace α) (m : σ) (s : Tablespace) :
    (still action : Moving σ α).run (m, s) = ((action.run s).1, (m, (action.run s).2)) := rfl

theorem run_part (get : σ → τ) (set : τ → σ → σ) (action : Moving τ α) (m : σ) (s : Tablespace) :
    (part get set action).run (m, s) =
      ((action.run (get m, s)).1,
        (set (action.run (get m, s)).2.1 m, (action.run (get m, s)).2.2)) := rfl

theorem run_mover (m : σ) (s : Tablespace) : (mover : Moving σ σ).run (m, s) = (.ok m, (m, s)) := rfl

/-- What moves, and the tables, after one call for each of `works`; after each call others do that
work on the tables. -/
def reached (action : Moving σ α) : List (Tablespace → Tablespace) → σ × Tablespace → σ × Tablespace
  | [], now => now
  | work :: rest, now =>
    let later := (action.run now).2
    reached action rest (later.1, work later.2)

/-- What a call answers that gives out the given item, if there is one. -/
def answer : Option (Result α) → Result (Option α)
  | none => .ok none
  | some item => item.map some

/-- Calls give out the items one after the other, errors among them, and then nothing for ever.
Others may work on the tables between the calls as long as the rows stay as they are. -/
def Drains (action : Moving σ (Option α)) (tables : List Table)
    (rows : Table → SortedMap Entry Row) (now : σ × Tablespace) (items : List (Result α)) : Prop :=
  ∀ works : List (Tablespace → Tablespace), (∀ work ∈ works, Tablespace.Spares tables rows work) →
    (action.run (reached action works now)).1 = answer items[works.length]?

section Reached

variable {β : Type} {P : List β → σ × Tablespace → Prop} {allowed : (Tablespace → Tablespace) → Prop}
  {works : List (Tablespace → Tablespace)} {items : List β} {now : σ × Tablespace}

/-- After some calls only the later items are to come, if each call gives out one and others leave
alone what is to come. -/
theorem reached_induction {action : Moving σ α}
    (hcall : ∀ items now, P items now → P items.tail (action.run now).2)
    (hwork : ∀ work, allowed work → ∀ items m s, P items (m, s) → P items (m, work s))
    (hworks : ∀ work ∈ works, allowed work) (h : P items now) :
    P (items.drop works.length) (reached action works now) := by
  induction works generalizing items now with
  | nil => simpa [reached] using h
  | cons work rest ih =>
    have hlater := hwork work (hworks work (by simp)) _ _ _ (hcall items now h)
    have hafter := ih (fun w hw => hworks w (by simp [hw])) hlater
    rwa [List.drop_tail] at hafter

end Reached

/-- Calls give out the items that are to come. -/
theorem drains_of_call {action : Moving σ (Option α)} {tables : List Table}
    {rows : Table → SortedMap Entry Row} {P : List (Result α) → σ × Tablespace → Prop}
    (hcall : ∀ items now, P items now →
      (action.run now).1 = answer items.head? ∧ P items.tail (action.run now).2)
    (hwork : ∀ work, Tablespace.Spares tables rows work →
      ∀ items m s, P items (m, s) → P items (m, work s))
    {items : List (Result α)} {now : σ × Tablespace} (h : P items now) :
    Drains action tables rows now items := by
  intro works hworks
  have hreached := reached_induction (fun items now hP => (hcall items now hP).2) hwork hworks h
  rw [(hcall _ _ hreached).1, List.head?_drop]

theorem answer_injective {item item' : Option (Result α)} (h : answer item = answer item') :
    item = item' := by
  rcases item with _ | _ | a <;> rcases item' with _ | _ | a' <;> cases h <;> rfl

/-- Only one list of items can be what the calls give out. -/
theorem Drains.unique {action : Moving σ (Option α)} {tables : List Table}
    {rows : Table → SortedMap Entry Row} {now : σ × Tablespace} {items items' : List (Result α)}
    (h : Drains action tables rows now items) (h' : Drains action tables rows now items') :
    items = items' := by
  refine List.ext_getElem? fun n => ?_
  have hworks : ∀ work ∈ List.replicate n (id : Tablespace → Tablespace),
      Tablespace.Spares tables rows work := by
    intro work hwork
    rw [List.eq_of_mem_replicate hwork]
    exact fun _ hholds => hholds
  have hboth := (h _ hworks).symm.trans (h' _ hworks)
  rw [List.length_replicate] at hboth
  exact answer_injective hboth

end Moving

namespace Walk

/-- A walk through the given rows that has yet to give out `rest`. -/
structure Ahead (rows : SortedMap Entry Row) (walk : Walk) (rest : List (Entry × Row)) : Prop where
  ended : walk.ended = true → rest = []
  place : walk.ended = false → ∃ passed, rows.toList = passed ++ rest ∧
    walk.last = passed.getLast?.map Prod.fst

/-- A new walk has everything ahead. -/
theorem ahead_walk (t : Table) (rows : SortedMap Entry Row) : t.walk.Ahead rows rows.toList :=
  ⟨fun h => (by cases h), fun _ => ⟨[], rfl, rfl⟩⟩

variable {tables : List Table} {rows : Table → SortedMap Entry Row} {s : Tablespace} {walk : Walk}
  {rest : List (Entry × Row)}

/-- What is ahead is in the table. -/
theorem Ahead.mem {rows : SortedMap Entry Row} (h : walk.Ahead rows rest) {b : Entry × Row}
    (hb : b ∈ rest) : b ∈ rows.toList := by
  cases hended : walk.ended with
  | true =>
    rw [h.ended hended] at hb
    cases hb
  | false =>
    obtain ⟨passed, hsplit, -⟩ := h.place hended
    rw [hsplit]
    exact List.mem_append_right _ hb

theorem Ahead.length_le {rows : SortedMap Entry Row} (h : walk.Ahead rows rest) :
    rest.length ≤ rows.size := by
  cases hended : walk.ended with
  | true => simp [h.ended hended]
  | false =>
    obtain ⟨passed, hsplit, -⟩ := h.place hended
    simp [SortedMap.size, hsplit]

/-- The next key is the first one ahead. -/
theorem nextKey_run (h : Tablespace.Holds tables rows s) (ht : walk.table ∈ tables)
    (hahead : walk.Ahead (rows walk.table) rest) :
    ∃ walk', nextKey.run (walk, s) = (.ok (rest.head?.map Prod.fst), (walk', s)) ∧
      walk'.table = walk.table ∧ walk'.Ahead (rows walk.table) rest.tail := by
  unfold nextKey
  rw [Action.run_bind_ok (Moving.run_mover walk s)]
  cases hended : walk.ended with
  | true =>
    obtain rfl := hahead.ended hended
    exact ⟨walk, rfl, rfl, hahead⟩
  | false =>
    obtain ⟨passed, hsplit, hlast⟩ := hahead.place hended
    have hnext : (Moving.still (walk.table.nextKey? walk.last) : Moving Walk _).run (walk, s) =
        (.ok (rest.head?.map Prod.fst), (walk, s)) := by
      rw [Moving.run_still, h.nextKey? ht, hlast,
        SortedMap.nextKey?_of_split (Entry.orderedOn_fits _) (h.ascending ht) hsplit]
    simp only [Bool.false_eq_true, if_false]
    rw [Action.run_bind_ok hnext]
    cases rest with
    | nil => exact ⟨{ walk with ended := true }, rfl, rfl, fun _ => rfl, fun hnot => by cases hnot⟩
    | cons b more =>
      refine ⟨{ walk with last := some b.1, ended := false }, rfl, rfl, fun hnot => ?_, fun _ => ?_⟩
      · cases hnot
      · exact ⟨passed ++ [b], by simpa using hsplit, by simp⟩

/-- The next row is the first one ahead. -/
theorem nextRow_run (h : Tablespace.Holds tables rows s) (hapart : Table.AllApart tables)
    (ht : walk.table ∈ tables) (hahead : walk.Ahead (rows walk.table) rest) :
    ∃ walk' s', nextRow.run (walk, s) = (.ok (rest.head?.map Prod.snd), (walk', s')) ∧
      Tablespace.Holds tables rows s' ∧ walk'.table = walk.table ∧
      walk'.Ahead (rows walk.table) rest.tail := by
  obtain ⟨walk', hkey, htable, hahead'⟩ := nextKey_run h ht hahead
  unfold nextRow
  rw [Action.run_bind_ok (Action.run_get (walk, s))]
  dsimp only [nextRowWithin]
  rw [Action.run_bind_ok hkey]
  cases rest with
  | nil => exact ⟨walk', s, rfl, h, htable, hahead'⟩
  | cons b more =>
    obtain ⟨k, row⟩ := b
    have hmem : (k, row) ∈ (rows walk.table).toList := hahead.mem (by simp)
    have hget := SortedMap.get?_of_mem (Entry.orderedOn_fits _) (h.ascending ht) hmem
    obtain ⟨s', hfind, hholds⟩ := h.find? hapart ht k
    refine ⟨walk', s', ?_, hholds, htable, hahead'⟩
    have hstill : (Moving.still (walk'.table.find? k) : Moving Walk _).run (walk', s) =
        (.ok (some row), (walk', s')) := by
      rw [Moving.run_still, htable, hfind, hget]
    simp only [List.head?_cons, Option.map_some]
    rw [Action.run_bind_ok (Moving.run_mover walk' s), Action.run_bind_ok hstill]
    rfl

end Walk

end PageDb
