import PageDb.Proofs.Store.Filling
import PageDb.Proofs.Table.Creation

/-!
A walk through a table that is changed meanwhile.

A walk takes two steps for each row: it asks for the next key, and later looks up the row of that
key.  `Move` is one of these steps, or a call on the store of the table that comes between them, and
`Iteration` is the walk with what it has given out so far.  The invariant of a run is `Sweeps`; what
it has to have given out of a key that is never away is `Covers`.
-/

namespace PageDb

/-! ## The next key -/

namespace SortedMap

variable {κ ν : Type} [Ord κ] {P : κ → Prop} {m : SortedMap κ ν} {key : κ} {after : Option κ}

/-- The next key is that of the first binding past the given key. -/
theorem keyAfter?_eq_find? (hP : OrderedOn P) (hkey : P key) {bindings : List (κ × ν)}
    (h : AscendingList P bindings) :
    keyAfter? key bindings = (bindings.find? fun b => decide (compare key b.1 = .lt)).map Prod.fst := by
  induction bindings with
  | nil => rfl
  | cons b rest ih =>
    obtain ⟨k, v⟩ := b
    simp only [keyAfter?, List.find?_cons]
    cases hcompare : compare key k with
    | lt => simp
    | gt => simpa using ih h.tail
    | eq =>
      -- what comes after an equal key is past it
      cases rest with
      | nil => rfl
      | cons c more =>
        have hlt : compare k c.1 = .lt := h.head_lt (b := c) (by simp)
        have hpast : compare key c.1 = .lt := by
          rw [hP.congr_left hkey h.head (h.tail.holds c (by simp)) hcompare, hlt]
        simp [hpast]

theorem nextKey?_eq_find? (hP : OrderedOn P) (hm : m.Ascending P) (hafter : ∀ k ∈ after, P k) :
    m.nextKey? after =
      (m.toList.find? fun b => decide (∀ k ∈ after, compare k b.1 = .lt)).map Prod.fst := by
  cases after with
  | none => cases h : m.toList <;> simp [nextKey?, h]
  | some k =>
    simp only [nextKey?, keyAfter?_eq_find? hP (hafter k rfl) hm, Option.mem_some_iff, forall_eq']

/-- The next key is past the given one, and the smallest one that is. -/
theorem least_of_nextKey? (hP : OrderedOn P) (hm : m.Ascending P) (hafter : ∀ k ∈ after, P k)
    (h : m.nextKey? after = some key) :
    P key ∧ (∀ k ∈ after, compare k key = .lt) ∧
      ∀ b ∈ m.toList, (∀ k ∈ after, compare k b.1 = .lt) → compare key b.1 ≠ .gt := by
  rw [nextKey?_eq_find? hP hm hafter] at h
  obtain ⟨c, hfind, rfl⟩ := Option.map_eq_some_iff.1 h
  obtain ⟨hpast, front, back, hsplit, hfront⟩ := List.find?_eq_some_iff_append.1 hfind
  have hc : P c.1 := hm.holds c (by simp [hsplit])
  refine ⟨hc, of_decide_eq_true hpast, fun b hb hb' => ?_⟩
  rw [hsplit, List.mem_append, List.mem_cons] at hb
  rcases hb with hb | rfl | hb
  · have hnot := hfront b hb
    rw [decide_eq_true hb'] at hnot
    cases hnot
  · simp [hP.refl hc]
  · have hlt := hm.increasing
    rw [hsplit, List.pairwise_append, List.pairwise_cons] at hlt
    simp [hlt.2.1.1 b hb]

/-- Where there is no next key, no key is past the given one. -/
theorem not_past_of_nextKey? (hP : OrderedOn P) (hm : m.Ascending P) (hafter : ∀ k ∈ after, P k)
    (h : m.nextKey? after = none) {b : κ × ν} (hb : b ∈ m.toList) :
    ∃ k ∈ after, compare k b.1 ≠ .lt := by
  rw [nextKey?_eq_find? hP hm hafter, Option.map_eq_none_iff, List.find?_eq_none] at h
  have hnot := h b hb
  cases after with
  | none => simp at hnot
  | some k => exact ⟨k, rfl, by simpa using hnot⟩

theorem OrderedOn.lt_of_le_of_lt (hP : OrderedOn P) {a b c : κ} (ha : P a) (hb : P b) (hc : P c)
    (hab : compare a b ≠ .gt) (hbc : compare b c = .lt) : compare a c = .lt := by
  cases h : compare a b with
  | lt => exact hP.lt_trans ha hb hc h hbc
  | eq => rw [hP.congr_left ha hb hc h, hbc]
  | gt => exact absurd h hab

end SortedMap

/-! ## Moves -/

/-- What happens next: the walk asks for a key, or looks up the row of the key it has, or something
is asked of the table. -/
inductive Move where
  | key
  | lookup
  | change (call : StoreCall)

/-- A walk on its way, and the tables at this time. -/
structure Iteration where
  walk : Walk
  /-- The key whose row has not been looked up yet. -/
  held : Option Entry := none
  /-- The rows given out so far, each with the key that led to it. -/
  yielded : List (Entry × Row) := []
  space : Tablespace

namespace Iteration

/-- A new walk through a table. -/
def start (t : Table) (s : Tablespace) : Iteration := { walk := t.walk, space := s }

/-- One move.  A walk that has a key looks up its row before it asks for another key. -/
def step (it : Iteration) : Move → Iteration
  | .key =>
    match it.held with
    | some _ => it
    | none =>
      match Walk.nextKey.run (it.walk, it.space) with
      | (.ok key, (walk, space)) => { it with walk := walk, space := space, held := key }
      | (.error _, (walk, space)) => { it with walk := walk, space := space }
  | .lookup =>
    match it.held with
    | none => it
    | some key =>
      match (it.walk.table.find? key).run it.space with
      | (.ok (some row), space) =>
        { it with held := none, yielded := it.yielded ++ [(key, row)], space := space }
      | (_, space) => { it with held := none, space := space }
  | .change call =>
    let t := it.walk.table
    { it with space := ((t.onStore (Shelf.call t.primaryIndex call)).run it.space).2 }

/-- The iteration after some moves. -/
def after (it : Iteration) (moves : List Move) : Iteration := moves.foldl step it

/-- What holds before, between and after some moves. -/
def Always (P : Iteration → Prop) : List Move → Iteration → Prop
  | [], it => P it
  | m :: rest, it => P it ∧ Always P rest (it.step m)

/-- The rows of the table that is walked through. -/
def contents (it : Iteration) : SortedMap Entry Row := it.walk.table.contents it.space

/-- The table has the key, unless the walk has ended. -/
def Present (key : Entry) (it : Iteration) : Prop :=
  it.walk.ended = false → (it.walk.table.shelf it.space).index.contains key = true

instance (key : Entry) (it : Iteration) : Decidable (it.Present key) :=
  inferInstanceAs (Decidable (_ → _))

instance decidableAlways {P : Iteration → Prop} [∀ it, Decidable (P it)] :
    ∀ (moves : List Move) (it : Iteration), Decidable (Always P moves it)
  | [], it => inferInstanceAs (Decidable (P it))
  | m :: rest, it =>
    have := decidableAlways (P := P) rest (it.step m)
    inferInstanceAs (Decidable (_ ∧ _))

/-- What a move should give out: the row that is stored under the key which is looked up. -/
def due (it : Iteration) : Move → List (Entry × Row)
  | .lookup =>
    match it.held with
    | none => []
    | some key => (it.contents.get? key).toList.map fun row => (key, row)
  | _ => []

/-! ## The moves of a walk -/

/-- The two moves of a walk, several times over. -/
def rounds (n : Nat) : List Move := (List.replicate n [Move.key, Move.lookup]).flatten

theorem after_rounds_succ (it : Iteration) (n : Nat) :
    it.after (rounds (n + 1)) = ((it.step .key).step .lookup).after (rounds n) := rfl

/-- Asking for the next row is a number of rounds, of which only the last one may give out a row. -/
theorem nextRowWithin_eq_rounds (fuel : Nat) (walk : Walk) (space : Tablespace)
    (yielded : List (Entry × Row)) :
    ∃ n it, it = Iteration.after ⟨walk, none, yielded, space⟩ (rounds n) ∧ it.held = none ∧
      ((Walk.nextRowWithin fuel).run (walk, space)).2 = (it.walk, it.space) ∧
      it.yielded.map Prod.snd = yielded.map Prod.snd ++
        match ((Walk.nextRowWithin fuel).run (walk, space)).1 with
        | .ok (some row) => [row]
        | _ => [] := by
  induction fuel generalizing walk space with
  | zero => exact ⟨0, _, rfl, rfl, rfl, by simp [Walk.nextRowWithin, Action.run_pure, after, rounds]⟩
  | succ fuel ih =>
    rcases hkey : Walk.nextKey.run (walk, space) with ⟨_ | _ | key, walk', space'⟩
    · have hrun : (Walk.nextRowWithin (fuel + 1)).run (walk, space) = _ :=
        Action.run_bind_error hkey
      refine ⟨1, ⟨walk', none, yielded, space'⟩, ?_, rfl, by rw [hrun], by simp [hrun]⟩
      rw [after_rounds_succ]
      simp only [step, hkey]
      rfl
    · have hrun : (Walk.nextRowWithin (fuel + 1)).run (walk, space) = _ := Action.run_bind_ok hkey
      refine ⟨1, ⟨walk', none, yielded, space'⟩, ?_, rfl, by rw [hrun]; rfl,
        by rw [hrun]; simp [Action.run_pure]⟩
      rw [after_rounds_succ]
      simp only [step, hkey]
      rfl
    · have hrun : (Walk.nextRowWithin (fuel + 1)).run (walk, space) = _ :=
        (Action.run_bind_ok hkey).trans (Action.run_bind_ok (Moving.run_mover walk' space'))
      have hstep : (Iteration.mk walk none yielded space).step .key =
          ⟨walk', some key, yielded, space'⟩ := by simp only [step, hkey]
      rw [Action.run_bind, Moving.run_still] at hrun
      rcases hfind : (walk'.table.find? key).run space' with ⟨_ | _ | row, space''⟩ <;>
        rw [hfind] at hrun
      · refine ⟨1, ⟨walk', none, yielded, space''⟩, ?_, rfl, by rw [hrun], by simp [hrun]⟩
        rw [after_rounds_succ, hstep]
        simp only [step, hfind]
        rfl
      · obtain ⟨n, it, hit, hheld, hstate, hyielded⟩ := ih walk' space''
        refine ⟨n + 1, it, ?_, hheld, by rw [hrun]; exact hstate, by rw [hrun]; exact hyielded⟩
        rw [after_rounds_succ, hstep]
        simp only [step, hfind]
        exact hit
      · refine ⟨1, ⟨walk', none, yielded ++ [(key, row)], space''⟩, ?_, rfl, by rw [hrun]; rfl,
          by rw [hrun]; simp [Action.run_pure]⟩
        rw [after_rounds_succ, hstep]
        simp only [step, hfind]
        rfl

/-! ## What a move does -/

variable {t : Table} {it : Iteration} {key : Entry}

/-- The store of the table that is walked through is sound. -/
def Healthy (t : Table) (it : Iteration) : Prop :=
  it.walk.table = t ∧ Shelf.Sound t.keyType t.primaryIndex 0 (t.shelf it.space)

theorem Healthy.ascending (h : it.Healthy t) : it.contents.Ascending (Entry.fits t.keyType) := by
  rw [contents, h.1]
  exact h.2.agree.ascending_contentsOf

/-- Asking the table for the next key answers that of its contents. -/
theorem Healthy.nextKey?_run (h : it.Healthy t) :
    (it.walk.table.nextKey? it.walk.last).run it.space =
      (.ok (it.contents.nextKey? it.walk.last), it.space) := by
  have hindex : (t.store it.space).liveIndex = .ok (t.shelf it.space).index := h.2.liveIndex
  have hkeys := SortedMap.nextKey?_congr (Shelf.keys_rows t.primaryIndex (t.shelf it.space))
    it.walk.last
  rw [contents, h.1, Table.contents, hkeys]
  show ((t.store it.space).nextKey? it.walk.last, it.space) = _
  rw [Store.nextKey?, hindex]
  rfl

theorem step_key_of_ended (hheld : it.held = none) (hended : it.walk.ended = true) :
    it.step .key = it := by
  have hrun : Walk.nextKey.run (it.walk, it.space) = (.ok none, (it.walk, it.space)) := by
    unfold Walk.nextKey
    rw [Action.run_bind_ok (Moving.run_mover _ _), hended]
    rfl
  obtain ⟨walk, held, yielded, space⟩ := it
  obtain rfl : held = none := hheld
  simp only [step, hrun]

theorem Healthy.nextKey_run (h : it.Healthy t) (hended : it.walk.ended = false) :
    Walk.nextKey.run (it.walk, it.space) =
      (.ok (it.contents.nextKey? it.walk.last),
        (match it.contents.nextKey? it.walk.last with
          | some key => { it.walk with last := some key }
          | none => { it.walk with ended := true }, it.space)) := by
  unfold Walk.nextKey
  rw [Action.run_bind_ok (Moving.run_mover _ _)]
  simp only [hended, Bool.false_eq_true, if_false]
  have hstill : (Moving.still (it.walk.table.nextKey? it.walk.last) : Moving Walk _).run
      (it.walk, it.space) = (.ok (it.contents.nextKey? it.walk.last), (it.walk, it.space)) := by
    rw [Moving.run_still, h.nextKey?_run]
  rw [Action.run_bind_ok hstill]
  cases it.contents.nextKey? it.walk.last <;> rfl

/-- A walk that has not ended gets the next key of the contents, or ends. -/
theorem Healthy.step_key (h : it.Healthy t) (hheld : it.held = none)
    (hended : it.walk.ended = false) :
    it.step .key =
      match it.contents.nextKey? it.walk.last with
      | some key => { it with walk := { it.walk with last := some key }, held := some key }
      | none => { it with walk := { it.walk with ended := true } } := by
  have hrun := h.nextKey_run hended
  obtain ⟨walk, held, yielded, space⟩ := it
  obtain rfl : held = none := hheld
  simp only [step, hrun]
  cases hnext : contents ⟨walk, none, yielded, space⟩ |>.nextKey? walk.last <;> rfl

/-- Looking a row up answers what is stored under the key, and changes no row. -/
theorem Healthy.find?_run (h : it.Healthy t) (key : Entry) :
    ∃ space, (t.find? key).run it.space = (.ok (it.contents.get? key), space) ∧
      Shelf.Sound t.keyType t.primaryIndex 0 (t.shelf space) ∧
      t.contents space = t.contents it.space := by
  obtain ⟨sh, hrun, hsound, hmoves⟩ := Table.run_getRow h.2 key
  have hattempt : (t.get key).attempt.run it.space =
      (.ok (Table.answerTo (t.contents it.space) key), t.withShelf it.space sh) := by
    rw [Action.run_attempt, Table.get, Table.run_onStore, hrun]
    rfl
  refine ⟨t.withShelf it.space sh, ?_, ?_, ?_⟩
  · rw [Table.find?, Action.run_bind_ok hattempt, Table.answerTo, contents, h.1]
    cases (t.contents it.space).get? key <;> rfl
  · rw [Table.shelf_withShelf]
    exact hsound
  · rw [Table.contents, Table.shelf_withShelf, hmoves.rows, Table.contents]

/-- Looking a key up gives out the row that is stored under it, and changes no row. -/
theorem Healthy.step_lookup (h : it.Healthy t) (hheld : it.held = some key) :
    ∃ space, it.step .lookup =
        { it with held := none, yielded := it.yielded ++ it.due .lookup, space := space } ∧
      Shelf.Sound t.keyType t.primaryIndex 0 (t.shelf space) ∧
      t.contents space = t.contents it.space := by
  obtain ⟨space, hrun, hsound, hcontents⟩ := h.find?_run key
  refine ⟨space, ?_, hsound, hcontents⟩
  rw [← h.1] at hrun
  simp only [step, due, hheld, hrun]
  cases it.contents.get? key <;> simp

/-- A call leaves the walk alone. -/
theorem Healthy.step_change (h : it.Healthy t) {c : StoreCall}
    (hc : c.Typed t.keyType t.primaryIndex) :
    ∃ space, it.step (.change c) = { it with space := space } ∧
      Shelf.Sound t.keyType t.primaryIndex 0 (t.shelf space) := by
  obtain ⟨r, sh, hrun, hsound, -⟩ := h.2.call hc
  refine ⟨t.withShelf it.space sh, ?_, ?_⟩
  · simp only [step, h.1, Table.run_onStore, hrun]
    rfl
  · rw [Table.shelf_withShelf]
    exact hsound

/-! ## What a run keeps -/

/-- The walk has given out ascending keys up to its last one, which it may still hold. -/
structure Sweeps (t : Table) (it : Iteration) : Prop where
  healthy : it.Healthy t
  last : ∀ k ∈ it.walk.last, k.fits t.keyType
  held : ∀ k ∈ it.held, it.walk.last = some k
  ended : it.walk.ended = true → it.held = none
  fits : ∀ b ∈ it.yielded, b.1.fits t.keyType
  ascending : (it.yielded.map Prod.fst).Pairwise fun a b => compare a b = .lt
  reached : ∀ b ∈ it.yielded, ∃ k ∈ it.walk.last, compare b.1 k ≠ .gt
  ahead : ∀ k ∈ it.held, ∀ b ∈ it.yielded, compare b.1 k = .lt

theorem sweeps_start {s : Tablespace} (hs : Shelf.Sound t.keyType t.primaryIndex 0 (t.shelf s)) :
    (start t s).Sweeps t where
  healthy := ⟨rfl, hs⟩
  last := nofun
  held := nofun
  ended := nofun
  fits := nofun
  ascending := .nil
  reached := nofun
  ahead := nofun

/-- The walk is past a key or at it. -/
def Behind (key : Entry) (it : Iteration) : Prop :=
  it.walk.ended = true ∨ ∃ k ∈ it.walk.last, compare k key ≠ .lt

/-- A key that the walk is past has been given out, or is held. -/
def Covers (key : Entry) (it : Iteration) : Prop :=
  it.Behind key →
    (∃ k ∈ it.held, k.same key = true) ∨ ∃ b ∈ it.yielded, b.1.same key = true

theorem covers_start (t : Table) (s : Tablespace) (key : Entry) : (start t s).Covers key := by
  rintro (hended | ⟨k, hk, -⟩)
  · cases hended
  · cases hk

namespace Sweeps

/-- The walk gets a key that is greater than all before. -/
theorem step_key (h : it.Sweeps t) : (it.step .key).Sweeps t := by
  have hP := Entry.orderedOn_fits t.keyType
  cases hheld : it.held with
  | some k =>
    have hsame : it.step .key = it := by simp only [step, hheld]
    rw [hsame]
    exact h
  | none =>
    cases hended : it.walk.ended with
    | true =>
      rw [step_key_of_ended hheld hended]
      exact h
    | false =>
      rw [h.healthy.step_key hheld hended]
      cases hnext : it.contents.nextKey? it.walk.last with
      | none => exact { h with ended := fun _ => hheld }
      | some key =>
        obtain ⟨hkey, hpast, -⟩ :=
          SortedMap.least_of_nextKey? hP h.healthy.ascending h.last hnext
        have hless : ∀ b ∈ it.yielded, compare b.1 key = .lt := by
          intro b hb
          obtain ⟨k, hk, hle⟩ := h.reached b hb
          exact SortedMap.OrderedOn.lt_of_le_of_lt hP (h.fits b hb) (h.last k hk) hkey hle
            (hpast k hk)
        refine ⟨h.healthy, ?_, ?_, ?_, h.fits, h.ascending, ?_, ?_⟩
        · rintro _ ⟨⟩
          exact hkey
        · rintro _ ⟨⟩
          rfl
        · intro hnot
          rw [hended] at hnot
          cases hnot
        · intro b hb
          refine ⟨key, rfl, ?_⟩
          rw [hless b hb]
          nofun
        · rintro _ ⟨⟩
          exact hless

/-- What is given out comes after all that was given out before. -/
theorem step_lookup (h : it.Sweeps t) : (it.step .lookup).Sweeps t := by
  cases hheld : it.held with
  | none =>
    have hsame : it.step .lookup = it := by simp only [step, hheld]
    rw [hsame]
    exact h
  | some key =>
    have hlast := h.held key hheld
    have hkey := h.last key hlast
    obtain ⟨space, hstep, hsound, -⟩ := h.healthy.step_lookup hheld
    have hdue : ∀ b ∈ it.due .lookup, b.1 = key := by
      simp only [due, hheld, List.mem_map]
      rintro _ ⟨row, -, rfl⟩
      rfl
    rw [hstep]
    refine ⟨⟨h.healthy.1, hsound⟩, h.last, nofun, fun _ => rfl, ?_, ?_, ?_, nofun⟩
    · intro b hb
      rcases List.mem_append.1 hb with hb | hb
      · exact h.fits b hb
      · rw [hdue b hb]
        exact hkey
    · have hone : ((it.due .lookup).map Prod.fst).Pairwise fun a b => compare a b = .lt := by
        simp only [due, hheld]
        cases it.contents.get? key <;> simp
      rw [List.map_append, List.pairwise_append]
      refine ⟨h.ascending, hone, ?_⟩
      intro a ha b hb
      obtain ⟨c, hc, rfl⟩ := List.mem_map.1 ha
      obtain ⟨d, hd, rfl⟩ := List.mem_map.1 hb
      rw [hdue d hd]
      exact h.ahead key hheld c hc
    · intro b hb
      rcases List.mem_append.1 hb with hb | hb
      · exact h.reached b hb
      · refine ⟨key, hlast, ?_⟩
        rw [hdue b hb, (Entry.orderedOn_fits t.keyType).refl hkey]
        nofun

theorem step (h : it.Sweeps t) {m : Move}
    (hm : ∀ c, m = .change c → c.Typed t.keyType t.primaryIndex) : (it.step m).Sweeps t := by
  cases m with
  | key => exact h.step_key
  | lookup => exact h.step_lookup
  | change c =>
    obtain ⟨space, hstep, hsound⟩ := h.healthy.step_change (hm c rfl)
    rw [hstep]
    exact ⟨⟨h.healthy.1, hsound⟩, h.last, h.held, h.ended, h.fits, h.ascending, h.reached, h.ahead⟩

/-- A move gives out what it should. -/
theorem yielded_step (h : it.Sweeps t) (m : Move) :
    (it.step m).yielded = it.yielded ++ it.due m := by
  cases m with
  | key =>
    show (it.step .key).yielded = it.yielded ++ []
    rw [List.append_nil]
    simp only [Iteration.step]
    cases it.held with
    | some k => rfl
    | none => rcases Walk.nextKey.run (it.walk, it.space) with ⟨_ | _, _, _⟩ <;> rfl
  | change c => exact (List.append_nil _).symm
  | lookup =>
    cases hheld : it.held with
    | none => simp [Iteration.step, due, hheld]
    | some key =>
      obtain ⟨space, hstep, -⟩ := h.healthy.step_lookup hheld
      rw [hstep]

/-- A key that is present has a row. -/
theorem exists_row {key : Entry} (hpresent : it.Present key) (hended : it.walk.ended = false) :
    ∃ row, it.contents.get? key = some row := by
  have hcontains := hpresent hended
  rw [Shelf.contains_rows it.walk.table.primaryIndex] at hcontains
  exact Option.isSome_iff_exists.1 hcontains

/-- The binding of a key that is present. -/
theorem exists_binding (h : it.Sweeps t) {key : Entry} (hkey : key.fits t.keyType)
    (hpresent : it.Present key) (hended : it.walk.ended = false) :
    ∃ b ∈ it.contents.toList, b.1.fits t.keyType ∧ compare key b.1 = .eq := by
  obtain ⟨row, hrow⟩ := exists_row hpresent hended
  obtain ⟨k, hk, hcompare⟩ :=
    (SortedMap.get?_eq_some_iff (Entry.orderedOn_fits t.keyType) h.healthy.ascending hkey).1 hrow
  exact ⟨(k, row), hk, h.healthy.ascending.holds _ hk, hcompare⟩

/-- Asking for the next key passes over no key that is present. -/
theorem covers_step_key (h : it.Sweeps t) {key : Entry} (hkey : key.fits t.keyType)
    (hpresent : it.Present key) (hcovers : it.Covers key) : (it.step .key).Covers key := by
  have hP := Entry.orderedOn_fits t.keyType
  cases hheld : it.held with
  | some k =>
    have hsame : it.step .key = it := by simp only [Iteration.step, hheld]
    rw [hsame]
    exact hcovers
  | none =>
    cases hended : it.walk.ended with
    | true =>
      rw [step_key_of_ended hheld hended]
      exact hcovers
    | false =>
      obtain ⟨b, hb, hbfits, hsame⟩ := h.exists_binding hkey hpresent hended
      -- the key and its binding are on the same side of every key
      have hcongr {k : Entry} (hk : k.fits t.keyType) : compare k key = compare k b.1 :=
        hP.congr_right hk hkey hbfits hsame
      have hgiven (hbehind : it.Behind key) : ∃ b ∈ it.yielded, b.1.same key = true := by
        rcases hcovers hbehind with ⟨k, hk, -⟩ | hgiven
        · rw [hheld] at hk
          cases hk
        · exact hgiven
      rw [h.healthy.step_key hheld hended]
      cases hnext : it.contents.nextKey? it.walk.last with
      | none =>
        intro _
        obtain ⟨k, hk, hnot⟩ :=
          SortedMap.not_past_of_nextKey? hP h.healthy.ascending h.last hnext hb
        exact .inr (hgiven (.inr ⟨k, hk, by rwa [hcongr (h.last k hk)]⟩))
      | some next =>
        obtain ⟨hfits, -, hleast⟩ :=
          SortedMap.least_of_nextKey? hP h.healthy.ascending h.last hnext
        intro hbehind
        by_cases hold : it.Behind key
        · exact .inr (hgiven hold)
        · have hpast : ∀ k ∈ it.walk.last, compare k b.1 = .lt := by
            intro k hk
            rw [← hcongr (h.last k hk)]
            exact Decidable.byContradiction fun hne => hold (.inr ⟨k, hk, hne⟩)
          have hnotPast : compare next key ≠ .lt := by
            rcases hbehind with hnot | ⟨k, hk, hne⟩
            · rw [hended] at hnot
              cases hnot
            · obtain rfl : next = k := Option.some.inj hk
              exact hne
          have hle : compare next key ≠ .gt := by
            rw [hcongr hfits]
            exact hleast b hb hpast
          refine .inl ⟨next, rfl, Entry.same_iff.2 ?_⟩
          cases hcompare : compare next key with
          | lt => exact absurd hcompare hnotPast
          | eq => rfl
          | gt => exact absurd hcompare hle

/-- A key that is there is given out before the walk is past it. -/
theorem covers_step (h : it.Sweeps t) {m : Move}
    (hm : ∀ c, m = .change c → c.Typed t.keyType t.primaryIndex) {key : Entry}
    (hkey : key.fits t.keyType) (hpresent : it.Present key) (hcovers : it.Covers key) :
    (it.step m).Covers key := by
  cases m with
  | key => exact h.covers_step_key hkey hpresent hcovers
  | change c =>
    obtain ⟨space, hstep, -⟩ := h.healthy.step_change (hm c rfl)
    rw [hstep]
    exact hcovers
  | lookup =>
    cases hheld : it.held with
    | none =>
      have hsame : it.step .lookup = it := by simp only [Iteration.step, hheld]
      rw [hsame]
      exact hcovers
    | some k =>
      obtain ⟨space, hstep, -⟩ := h.healthy.step_lookup hheld
      rw [hstep]
      intro hbehind
      refine .inr ?_
      rcases hcovers hbehind with ⟨k', hk', hsame⟩ | ⟨b, hb, hsame⟩
      · obtain rfl : k = k' := by rwa [hheld, Option.mem_some_iff] at hk'
        have hended : it.walk.ended = false := by
          rw [← Bool.not_eq_true]
          intro hended
          rw [h.ended hended] at hheld
          cases hheld
        obtain ⟨row, hrow⟩ := exists_row hpresent hended
        have hfound : it.contents.get? k = some row := by
          rw [← hrow]
          exact SortedMap.get?_congr (Entry.orderedOn_fits t.keyType) h.healthy.ascending
            (h.last k (h.held k hheld)) hkey (Entry.same_iff.1 hsame)
        refine ⟨(k, row), List.mem_append_right _ ?_, hsame⟩
        simp [due, hheld, hfound]
      · exact ⟨b, List.mem_append_left _ hb, hsame⟩

end Sweeps

/-- A run keeps the order, and misses no key that is always present. -/
theorem Sweeps.after (h : it.Sweeps t) {moves : List Move}
    (hmoves : ∀ c, .change c ∈ moves → c.Typed t.keyType t.primaryIndex) :
    (it.after moves).Sweeps t ∧ ∀ key, key.fits t.keyType → Always (Present key) moves it →
      it.Covers key → (it.after moves).Covers key := by
  induction moves generalizing it with
  | nil => exact ⟨h, fun _ _ _ hcovers => hcovers⟩
  | cons m rest ih =>
    have hm : ∀ c, m = .change c → c.Typed t.keyType t.primaryIndex := by
      rintro c rfl
      exact hmoves c (by simp)
    obtain ⟨hsweeps, hcovers⟩ := ih (h.step hm) fun c hc => hmoves c (by simp [hc])
    refine ⟨hsweeps, fun key hkey halways hbefore => ?_⟩
    exact hcovers key hkey halways.2 (h.covers_step hm hkey halways.1 hbefore)

/-- A walk that has ended gives out nothing any more. -/
theorem yielded_after_of_ended (hended : it.walk.ended = true) (hheld : it.held = none)
    (moves : List Move) : (it.after moves).yielded = it.yielded := by
  induction moves generalizing it with
  | nil => rfl
  | cons m rest ih =>
    have hsame : (it.step m).walk = it.walk ∧ (it.step m).held = it.held ∧
        (it.step m).yielded = it.yielded := by
      cases m with
      | key => rw [step_key_of_ended hheld hended]; exact ⟨rfl, rfl, rfl⟩
      | lookup => simp [step, hheld]
      | change c => exact ⟨rfl, rfl, rfl⟩
    obtain ⟨hwalk, hheld', hyielded⟩ := hsame
    rw [← hyielded]
    exact ih (hwalk ▸ hended) (hheld'.trans hheld)

end Iteration

open Iteration in
/-- Whatever calls come between the moves of a walk, as long as no update assigns a column twice: the
keys of the rows given out ascend; a row is given out exactly when a key is looked up under which it
is stored at this moment; a key that is present from the start until the walk ends is given out
exactly once; and a walk that has ended gives out nothing any more. -/
theorem sweeps_between_calls (t : Table) {s : Tablespace}
    (hs : Reachable t.keyType t.primaryIndex (t.shelf s)) {moves : List Move}
    (hmoves : ∀ c, .change c ∈ moves → c.Typed t.keyType t.primaryIndex) :
    let it := (start t s).after moves
    (it.yielded.map Prod.fst).Pairwise (fun a b => compare a b = .lt) ∧
      (∀ m, (it.step m).yielded = it.yielded ++ it.due m) ∧
      (∀ key, key.fits t.keyType → Always (Present key) moves (start t s) →
        it.walk.ended = true → it.yielded.countP (fun b => b.1.same key) = 1) ∧
      (it.walk.ended = true → ∀ more, (it.after more).yielded = it.yielded) := by
  intro it
  obtain ⟨hsweeps, hcovers⟩ := (sweeps_start hs.sound).after hmoves
  refine ⟨hsweeps.ascending, hsweeps.yielded_step, ?_, ?_⟩
  · intro key hkey halways hended
    have hgiven : ∃ b ∈ it.yielded, b.1.same key = true := by
      rcases hcovers key hkey halways (covers_start t s key) (.inl hended) with ⟨k, hk, -⟩ | hgiven
      · rw [hsweeps.ended hended] at hk
        cases hk
      · exact hgiven
    have hdistinct : it.yielded.Pairwise fun a b => a.1.same b.1 = false := by
      refine (List.pairwise_map.1 hsweeps.ascending).imp ?_
      intro a b hlt
      rw [Entry.same_eq_false_iff, hlt]
      nofun
    exact countP_same_eq_one hsweeps.fits hkey hdistinct hgiven
  · intro hended
    exact yielded_after_of_ended hended (hsweeps.ended hended)

/-- A table of one column. -/
def numbers : Table where
  number := 1
  database := "shop"
  name := "numbers"
  schema := ⟨[({ name := "x", type := .int } : Column).asPrimary], 0⟩

/-- The table with two rows on a page each, of which one is in memory. -/
def twoNumbers : Tablespace :=
  numbers.withShelf {} (Shelf.after 0 [.insert [.int 1] false, .insert [.int 2] false]
    ⟨oneRowEach.newStore "shop" "numbers", {}⟩)

/-- The first key gets away from under the walk and comes back ahead of it, and is removed there. -/
def runaway : List Move :=
  [.key, .change (.update (.int 1) [0] [.int 3] false), .lookup, .key, .lookup,
    .change (.delete (.int 3) false), .key]

open Iteration in
/-- The key that stays is given out once, and only that. -/
theorem sweeps_between_calls_runaway :
    let it := (start numbers twoNumbers).after runaway
    it.walk.ended = true ∧ it.yielded.map Prod.fst = [.int 2] ∧
      it.yielded.countP (fun b => b.1.same (.int 2)) = 1 ∧
      (it.after runaway).yielded = it.yielded := by
  have hreachable : Reachable .int 0 (numbers.shelf twoNumbers) := by
    rw [twoNumbers, Table.shelf_withShelf]
    refine .after (.new oneRowEach _ _ Directory.ordered_empty) ?_
    simp [StoreCall.Typed, Entry.fits, Entry.type?]
  have htyped : ∀ c, .change c ∈ runaway → c.Typed .int 0 := by
    simp [runaway, StoreCall.Typed, Entry.fits, Entry.type?]
  have hpresent : Always (Present (.int 2)) runaway (start numbers twoNumbers) := by decide +kernel
  have hrun : ((start numbers twoNumbers).after runaway).walk.ended = true ∧
      ((start numbers twoNumbers).after runaway).yielded.map Prod.fst = [.int 2] := by decide +kernel
  obtain ⟨-, -, honce, hover⟩ := sweeps_between_calls numbers hreachable htyped
  dsimp only
  generalize (start numbers twoNumbers).after runaway = it at hrun honce hover ⊢
  exact ⟨hrun.1, hrun.2, honce (.int 2) (.inr rfl) hpresent hrun.1, hover hrun.1 _⟩

/-- The table after an update has assigned its column twice, and another row has driven the page to
its file. -/
def assignedTwice : Tablespace :=
  [TableCall.insert [.int 1] false, .update (.int 1) [("x", .int 5), ("x", .int 1)] false,
    .insert [.int 9] false].foldl (fun s c => ((numbers.call c).run s).2)
    (Tablespace.create {} oneRowEach numbers)

open Iteration in
/-- A column that is assigned twice leaves a key whose row cannot be read back.  The table has this
key all the time, and the walk does not give it out. -/
theorem not_yielded_of_assignedTwice :
    let moves := [.key, .lookup, .key, .lookup, .key]
    let it := (start numbers assignedTwice).after moves
    Always (Present (.int 5)) moves (start numbers assignedTwice) ∧ it.walk.ended = true ∧
      it.yielded.map Prod.fst = [.int 9] ∧ it.yielded.countP (fun b => b.1.same (.int 5)) ≠ 1 := by
  decide +kernel

end PageDb
