import Mathlib.Data.List.Sections
import PageDb.Proofs.Table.Walk
import PageDb.Query.Join

/-!
Walking through all combinations of rows.

A join that walks its tables turns like an odometer: the last table moves fastest, and one that is at
its end starts again when the one before it moves.  `Wheel` is the view of one place of the join, and
a list of wheels, fastest first, stands for all of them.  A place without a walk is a wheel with one
position that shows nothing.
-/

namespace PageDb

/-- One place of a join: its rows, those that come before it starts again, and the row it shows. -/
structure Wheel where
  rows : List (Option Row)
  rest : List (Option Row)
  shown : Option Row

namespace Wheel

/-- A place without a walk. -/
def blank : Wheel := ⟨[none], [], none⟩

/-- A wheel that shows its first row. -/
def Fresh (w : Wheel) : Prop := w.rows = w.shown :: w.rest

/-- The combination that wheels show. -/
abbrev now (wheels : List Wheel) : List (Option Row) := wheels.map shown

theorem reverse_now_cons (w : Wheel) (wheels : List Wheel) :
    (now (w :: wheels)).reverse = (now wheels).reverse ++ [w.shown] := by
  simp

/-- Turns to the next combination: the first wheel that has a row left takes it, and those before it
start again. -/
def turn : List Wheel → Option (List Wheel)
  | [] => none
  | w :: wheels =>
    match w.rest, w.rows with
    | row :: rest, _ => some (⟨w.rows, rest, row⟩ :: wheels)
    | [], [] => none
    | [], row :: rest => (turn wheels).map fun turned => ⟨w.rows, rest, row⟩ :: turned

/-- The combinations to come after the one shown. -/
def future : List Wheel → List (List (Option Row))
  | [] => []
  | w :: wheels =>
    w.rest.map (fun row => row :: now wheels) ++
      (future wheels).flatMap fun combination => w.rows.map fun row => row :: combination

/-- Wheels that cannot turn have shown all combinations. -/
theorem future_of_turn_none {wheels : List Wheel} (h : turn wheels = none) :
    future wheels = [] := by
  induction wheels with
  | nil => rfl
  | cons w wheels ih =>
    obtain ⟨rows, rest, shown⟩ := w
    cases rest with
    | cons row rest => simp [turn] at h
    | nil =>
      cases rows with
      | nil => simp [future]
      | cons row rest =>
        have hturn : turn wheels = none := by simpa [turn] using h
        simp [future, ih hturn]

/-- Turning shows the next combination. -/
theorem future_of_turn {wheels turned : List Wheel} (h : turn wheels = some turned) :
    future wheels = now turned :: future turned := by
  induction wheels generalizing turned with
  | nil => simp [turn] at h
  | cons w wheels ih =>
    obtain ⟨rows, rest, shown⟩ := w
    cases rest with
    | cons row rest =>
      obtain rfl : _ = turned := by simpa [turn] using h
      simp [future]
    | nil =>
      cases rows with
      | nil => simp [turn] at h
      | cons row rest =>
        obtain ⟨others, hothers, rfl⟩ : ∃ others, turn wheels = some others ∧ _ = turned := by
          simpa [turn] using h
        simp [future, ih hothers]

/-- Wheels that show their first rows show the first combination. -/
theorem sections_of_fresh {wheels : List Wheel} (h : ∀ w ∈ wheels, w.Fresh) :
    (wheels.map rows).sections = now wheels :: future wheels := by
  induction wheels with
  | nil => rfl
  | cons w wheels ih =>
    have hw : w.rows = w.shown :: w.rest := h w (by simp)
    simp only [List.map_cons, List.sections, ih fun v hv => h v (by simp [hv]), List.flatMap_cons,
      future]
    simp [hw]

/-- Blank wheels do not turn. -/
theorem turn_of_blank {wheels : List Wheel} (h : ∀ w ∈ wheels, w = blank) : turn wheels = none := by
  induction wheels with
  | nil => rfl
  | cons w wheels ih =>
    obtain rfl := h w (by simp)
    simp [turn, blank, ih fun v hv => h v (by simp [hv])]

end Wheel

namespace Join

variable {tables : List Table} {rows : Table → SortedMap Entry Row} {j j' : Join} {s : Tablespace}
  {i : Nat} {wheels : List Wheel}

/-- The places of a join below `i` are at the given wheels. -/
inductive Shows (rows : Table → SortedMap Entry Row) (j : Join) : Nat → List Wheel → Prop
  | nil : Shows rows j 0 []
  | blank {i : Nat} {wheels : List Wheel} : j.walk? i = none → Shows rows j i wheels →
      Shows rows j (i + 1) (.blank :: wheels)
  | walked {i : Nat} {wheels : List Wheel} {walk : Walk} {rest : List (Entry × Row)} {row : Row} :
      j.walk? i = some walk → j.tables[i]? = some walk.table → walk.Ahead (rows walk.table) rest →
      j.current[i]? = some (some row) → Shows rows j i wheels →
      Shows rows j (i + 1)
        (⟨(rows walk.table).values.map some, rest.map fun b => some b.2, some row⟩ :: wheels)

/-- Joins over the same tables, in the same state but for walks and rows. -/
structure Alike (j j' : Join) : Prop where
  tables : j'.tables = j.tables
  plan : j'.plan = j.plan
  merge : j'.merge = j.merge
  condition : j'.condition = j.condition
  seeded : j'.seeded = j.seeded
  exhausted : j'.exhausted = j.exhausted
  width : j'.current.length = j.current.length
  walked : ∀ k, (j'.walk? k).isSome = (j.walk? k).isSome

theorem Alike.refl (j : Join) : Alike j j := ⟨rfl, rfl, rfl, rfl, rfl, rfl, rfl, fun _ => rfl⟩

theorem Alike.trans {j'' : Join} (h : Alike j j') (h' : Alike j' j'') : Alike j j'' :=
  ⟨h'.tables.trans h.tables, h'.plan.trans h.plan, h'.merge.trans h.merge,
    h'.condition.trans h.condition, h'.seeded.trans h.seeded, h'.exhausted.trans h.exhausted,
    h'.width.trans h.width, fun k => (h'.walked k).trans (h.walked k)⟩

/-- What a join shows at a place: its walk and, if there is one, its row. -/
structure SameAt (j j' : Join) (k : Nat) : Prop where
  walk : j'.walk? k = j.walk? k
  row : (j.walk? k).isSome → j'.current[k]? = j.current[k]?

theorem SameAt.refl (j : Join) (k : Nat) : SameAt j j k := ⟨rfl, fun _ => rfl⟩

theorem SameAt.trans {j'' : Join} {k : Nat} (h : SameAt j j' k) (h' : SameAt j' j'' k) :
    SameAt j j'' k :=
  ⟨h'.walk.trans h.walk, fun hk => (h'.row (by rwa [h.walk])).trans (h.row hk)⟩

theorem walk?_withWalk_of_ne {k : Nat} (h : k ≠ i) (walk : Walk) :
    (j.withWalk i walk).walk? k = j.walk? k := by
  simp [walk?, Join.withWalk, List.getElem?_set_ne h.symm]

theorem walk?_withWalk_self {old : Walk} (h : j.walk? i = some old) (walk : Walk) :
    (j.withWalk i walk).walk? i = some walk := by
  have hlt : i < j.walks.length := by
    refine Nat.lt_of_not_le fun hle => ?_
    simp [walk?, List.getElem?_eq_none hle] at h
  simp [walk?, Join.withWalk, List.getElem?_set_self hlt]

theorem alike_withWalk {old : Walk} (h : j.walk? i = some old) (walk : Walk) :
    Alike j (j.withWalk i walk) := by
  refine ⟨rfl, rfl, rfl, rfl, rfl, rfl, rfl, fun k => ?_⟩
  by_cases hk : k = i
  · rw [hk, walk?_withWalk_self h walk, h]
    rfl
  · rw [walk?_withWalk_of_ne hk walk]

theorem alike_withRow (j : Join) (i : Nat) (row : Row) : Alike j (j.withRow i row) :=
  ⟨rfl, rfl, rfl, rfl, rfl, rfl, by simp [Join.withRow], fun _ => rfl⟩

theorem sameAt_withWalk {k : Nat} (h : k ≠ i) (walk : Walk) : SameAt j (j.withWalk i walk) k :=
  ⟨walk?_withWalk_of_ne h walk, fun _ => rfl⟩

theorem sameAt_withRow {k : Nat} (h : k ≠ i) (row : Row) : SameAt j (j.withRow i row) k :=
  ⟨rfl, fun _ => by simp [Join.withRow, List.getElem?_set_ne h.symm]⟩

theorem Shows.congr (h : Shows rows j i wheels) (htables : j'.tables = j.tables)
    (hsame : ∀ k < i, SameAt j j' k) : Shows rows j' i wheels := by
  induction h with
  | nil => exact .nil
  | @blank i wheels hwalk _ ih =>
    exact .blank ((hsame i (by omega)).walk.trans hwalk) (ih fun k hk => hsame k (by omega))
  | @walked i wheels walk rest row hwalk htable hahead hrow _ ih =>
    have hi := hsame i (by omega)
    refine .walked (hi.walk.trans hwalk) (htables ▸ htable) hahead ?_ (ih fun k hk => hsame k (by omega))
    rw [hi.row (by simp [hwalk]), hrow]

/-- Without walks all wheels are blank. -/
theorem Shows.blank_of_no_walk (h : Shows rows j i wheels)
    (hnone : (j.walks.take i).any Option.isSome = false) : ∀ w ∈ wheels, w = Wheel.blank := by
  have hwalk : ∀ k < i, j.walk? k = none := by
    intro k hk
    cases hget : j.walks[k]? with
    | none => simp [walk?, hget]
    | some walk =>
      have hmem : walk ∈ j.walks.take i := by
        refine List.mem_of_getElem? (i := k) ?_
        rw [List.getElem?_take, if_pos hk, hget]
      have := List.any_eq_false.1 hnone walk hmem
      simpa [walk?, hget] using this
  clear hnone
  induction h with
  | nil => simp
  | @blank i wheels _ _ ih =>
    intro w hw
    rcases List.mem_cons.1 hw with rfl | hw
    · rfl
    · exact ih (fun k hk => hwalk k (by omega)) w hw
  | @walked i wheels walk _ _ hsome _ _ _ _ _ =>
    rw [hwalk i (by omega)] at hsome
    cases hsome

/-! ## Turning -/

theorem pull_run (h : Tablespace.Holds tables rows s) (hapart : Table.AllApart tables) {walk : Walk}
    (ht : walk.table ∈ tables) {rest : List (Entry × Row)} (hahead : walk.Ahead (rows walk.table) rest)
    (j : Join) (i : Nat) :
    ∃ walk' s', (pull i walk).run (j, s) =
        (.ok (rest.head?.map Prod.snd), (j.withWalk i walk', s')) ∧
      Tablespace.Holds tables rows s' ∧ walk'.table = walk.table ∧
      walk'.Ahead (rows walk.table) rest.tail := by
  obtain ⟨walk', s', hrun, hholds, htable, hahead'⟩ := Walk.nextRow_run h hapart ht hahead
  exact ⟨walk', s', by rw [pull, Moving.run_part, hrun], hholds, htable, hahead'⟩

theorem run_update (f : Join → Join) (j : Join) (s : Tablespace) :
    (update f).run (j, s) = (.ok (), (f j, s)) := rfl

/-- Starting a walk again takes its first row, if the table has one. -/
theorem restart_run (h : Tablespace.Holds tables rows s) (hapart : Table.AllApart tables) {t : Table}
    (ht : t ∈ tables) (j : Join) (i : Nat) :
    ∃ b j' s', (restart i t).run (j, s) = (.ok b, (j', s')) ∧ Tablespace.Holds tables rows s' ∧
      ((rows t).toList = [] ∧ b = false ∧ j' = j ∨
        ∃ c more walk, (rows t).toList = c :: more ∧ b = true ∧ walk.table = t ∧
          walk.Ahead (rows t) more ∧ j' = (j.withRow i c.2).withWalk i walk) := by
  have hwhole : t.walk.Ahead (rows t.walk.table) (rows t).toList := Walk.ahead_walk t (rows t)
  obtain ⟨walk, s', hrun, hholds, htable, hahead⟩ := Walk.nextRow_run h hapart ht hwhole
  unfold restart
  rw [Action.run_bind_ok (Action.run_get (j, s))]
  simp only [hrun]
  cases hrows : (rows t).toList with
  | nil => exact ⟨false, j, s', rfl, hholds, .inl ⟨rfl, rfl, rfl⟩⟩
  | cons c more =>
    rw [hrows] at hahead
    exact ⟨true, _, s', rfl, hholds, .inr ⟨c, more, walk, rfl, rfl, htable, hahead, rfl⟩⟩

section Advance

theorem advance_of_blank (hwalk : j.walk? i = none) :
    (advance (i + 1)).run (j, s) = (advance i).run (j, s) := by
  conv_lhs => unfold advance
  rw [Action.run_bind_ok (Moving.run_mover j s)]
  simp only [hwalk]

variable {walk : Walk} {t : Table} {s₁ : Tablespace} {j₁ : Join}

theorem advance_of_row (hwalk : j.walk? i = some walk) (ht : j.tables[i]? = some t) {row : Row}
    (hpull : (pull i walk).run (j, s) = (.ok (some row), (j₁, s₁))) :
    (advance (i + 1)).run (j, s) = (.ok true, (j₁.withRow i row, s₁)) := by
  unfold advance
  rw [Action.run_bind_ok (Moving.run_mover j s)]
  simp only [hwalk, ht]
  rw [Action.run_bind_ok hpull]
  rfl

theorem advance_of_end (hwalk : j.walk? i = some walk) (ht : j.tables[i]? = some t)
    (hpull : (pull i walk).run (j, s) = (.ok none, (j₁, s₁))) {b : Bool} {j₂ : Join}
    {s₂ : Tablespace} (hrestart : (restart i t).run (j₁, s₁) = (.ok b, (j₂, s₂))) :
    (advance (i + 1)).run (j, s) =
      if (j.walks.take i).any Option.isSome then
        if b then (advance i).run (j₂, s₂) else (.ok false, (j₂, s₂))
      else (.ok false, (j₁, s₁)) := by
  conv_lhs => unfold advance
  rw [Action.run_bind_ok (Moving.run_mover j s)]
  simp only [hwalk, ht]
  rw [Action.run_bind_ok hpull]
  simp only
  split
  · rw [Action.run_bind_ok hrestart]
    cases b <;> rfl
  · rfl

end Advance

/-- A place has moved to a row, and its walk is the given one. -/
structure Moved (i : Nat) (walk : Walk) (row : Row) (j j' : Join) : Prop where
  alike : Alike j j'
  others : ∀ k, k ≠ i → SameAt j j' k
  walk : j'.walk? i = some walk
  row : j'.current[i]? = some (some row)

section Moved

variable {old walk : Walk} {row : Row} {rest : List (Entry × Row)}

theorem moved_withRow (hwalk : j.walk? i = some old) (hlt : i < j.current.length) (walk : Walk)
    (row : Row) : Moved i walk row j ((j.withWalk i walk).withRow i row) where
  alike := (alike_withWalk hwalk walk).trans (alike_withRow _ i row)
  others _ hk := (sameAt_withWalk hk walk).trans (sameAt_withRow hk row)
  walk := walk?_withWalk_self hwalk walk
  row := by simp [withRow, withWalk, List.getElem?_set_self hlt]

theorem Moved.withWalk (h : Moved i walk row j j') (fresh : Walk) :
    Moved i fresh row j (j'.withWalk i fresh) where
  alike := h.alike.trans (alike_withWalk h.walk fresh)
  others k hk := (h.others k hk).trans (sameAt_withWalk hk fresh)
  walk := walk?_withWalk_self h.walk fresh
  row := h.row

/-- A place that has moved stays at its wheel while those before it move. -/
theorem Moved.shows_after {j'' : Join} (h : Moved i walk row j j') (halike : Alike j' j'')
    (hsame : SameAt j' j'' i) (htable : j.tables[i]? = some walk.table)
    (hahead : walk.Ahead (rows walk.table) rest) (hbelow : Shows rows j'' i wheels) :
    Shows rows j'' (i + 1)
      (⟨(rows walk.table).values.map some, rest.map fun b => some b.2, some row⟩ :: wheels) :=
  .walked (hsame.walk.trans h.walk) ((h.alike.trans halike).tables ▸ htable) hahead
    ((hsame.row (by rw [h.walk]; rfl)).trans h.row) hbelow

/-- The places up to one that has moved are at new wheels. -/
theorem Moved.shows (h : Moved i walk row j j') (htable : j.tables[i]? = some walk.table)
    (hahead : walk.Ahead (rows walk.table) rest) (hbelow : Shows rows j i wheels) :
    Shows rows j' (i + 1)
      (⟨(rows walk.table).values.map some, rest.map fun b => some b.2, some row⟩ :: wheels) :=
  h.shows_after (.refl j') (.refl j' i) htable hahead
    (hbelow.congr h.alike.tables fun k hk => h.others k (by omega))

end Moved

/-- Moving on turns the wheels of the places below `i` and changes nothing from there on. -/
theorem advance_run (hapart : Table.AllApart tables) (h : Tablespace.Holds tables rows s)
    (htables : j.tables = tables) (hshows : Shows rows j i wheels) :
    ∃ b j' s', (advance i).run (j, s) = (.ok b, (j', s')) ∧ Tablespace.Holds tables rows s' ∧
      Alike j j' ∧ (∀ k, i ≤ k → SameAt j j' k) ∧
      match Wheel.turn wheels with
      | some turned => b = true ∧ Shows rows j' i turned
      | none => b = false := by
  induction i generalizing j s wheels with
  | zero =>
    cases hshows
    exact ⟨false, j, s, rfl, h, .refl j, fun k _ => .refl j k, rfl⟩
  | succ i ih =>
    cases hshows with
    | @blank _ wheels hwalk hbelow =>
      obtain ⟨b, j', s', hrun, hholds, halike, hsame, hturn⟩ := ih h htables hbelow
      refine ⟨b, j', s', (advance_of_blank hwalk).trans hrun, hholds, halike,
        fun k hk => hsame k (by omega), ?_⟩
      cases hturned : Wheel.turn wheels with
      | none => simpa [Wheel.turn, Wheel.blank, hturned] using hturn
      | some turned =>
        simp only [hturned] at hturn
        simp only [Wheel.turn, Wheel.blank, hturned, Option.map_some]
        exact ⟨hturn.1, .blank ((hsame i (by omega)).walk.trans hwalk) hturn.2⟩
    | @walked _ wheels walk rest row hwalk htable hahead hrow hbelow =>
      have ht : walk.table ∈ tables := htables ▸ List.mem_of_getElem? htable
      have hlt : i < j.current.length := (List.getElem?_eq_some_iff.1 hrow).1
      obtain ⟨walk', s₁, hpull, h₁, htable', hahead'⟩ := pull_run h hapart ht hahead j i
      cases rest with
      | cons c rest =>
        -- the walk has a row left
        have hmoved := moved_withRow hwalk hlt walk' c.2
        refine ⟨true, _, s₁, advance_of_row hwalk htable hpull, h₁, hmoved.alike,
          fun k hk => hmoved.others k (by omega), rfl, ?_⟩
        rw [← htable'] at hahead' htable ⊢
        exact hmoved.shows htable hahead' hbelow
      | nil =>
        -- it is at its end, and the places before it move on if there are any
        have h₁' (k : Nat) (hk : k ≠ i) : SameAt j (j.withWalk i walk') k := sameAt_withWalk hk walk'
        obtain ⟨b, j₂, s₂, hrestart, h₂, hfirst⟩ := restart_run h₁ hapart ht (j.withWalk i walk') i
        have hrun := advance_of_end hwalk htable hpull hrestart
        cases hany : (j.walks.take i).any Option.isSome with
        | false =>
          simp only [hany, Bool.false_eq_true, if_false] at hrun
          refine ⟨false, _, s₁, hrun, h₁, alike_withWalk hwalk walk', fun k hk => h₁' k (by omega), ?_⟩
          have hturn := Wheel.turn_of_blank (hbelow.blank_of_no_walk hany)
          cases hvalues : (rows walk.table).values.map some <;> simp [Wheel.turn, hturn]
        | true =>
          simp only [hany, if_true] at hrun
          rcases hfirst with ⟨hempty, rfl, rfl⟩ | ⟨c, more, fresh, hrows, rfl, hfresh, hahead₂, rfl⟩
          · refine ⟨false, _, s₂, hrun, h₂, alike_withWalk hwalk walk',
              fun k hk => h₁' k (by omega), ?_⟩
            have hvalues : (rows walk.table).values.map some = [] := by
              simp [SortedMap.values, hempty]
            simp [Wheel.turn, hvalues]
          · have hmoved := (moved_withRow hwalk hlt walk' c.2).withWalk fresh
            obtain ⟨b, j₃, s₃, hrun₃, h₃, halike₃, hsame₃, hturn₃⟩ :=
              ih h₂ (hmoved.alike.tables.trans htables)
                (hbelow.congr hmoved.alike.tables fun k hk => hmoved.others k (by omega))
            refine ⟨b, j₃, s₃, hrun.trans hrun₃, h₃, hmoved.alike.trans halike₃, fun k hk => ?_, ?_⟩
            · exact (hmoved.others k (by omega)).trans (hsame₃ k (by omega))
            have hvalues : (rows walk.table).values.map some =
                some c.2 :: more.map fun b => some b.2 := by
              simp [SortedMap.values, hrows, Function.comp_def]
            simp only [Wheel.turn, hvalues, List.map_nil]
            cases hturned : Wheel.turn wheels with
            | none => simpa [hturned] using hturn₃
            | some turned =>
              simp only [hturned] at hturn₃
              rw [← hfresh] at htable hahead₂ hvalues
              have hshows :=
                hmoved.shows_after halike₃ (hsame₃ i (by omega)) htable hahead₂ hturn₃.2
              rw [hvalues] at hshows
              exact ⟨hturn₃.1, hshows⟩

/-! ## The first combination -/

/-- What the places below `i` run through, the last place first. -/
def positions (rows : Table → SortedMap Entry Row) (j : Join) : Nat → List (List (Option Row))
  | 0 => []
  | i + 1 =>
    (match j.walk? i, j.tables[i]? with
      | some _, some t => (rows t).values.map some
      | _, _ => [none]) :: positions rows j i

theorem Shows.positions (h : Shows rows j i wheels) :
    wheels.map Wheel.rows = j.positions rows i := by
  induction h with
  | nil => rfl
  | blank hwalk _ ih => simp [Join.positions, hwalk, ih, Wheel.blank]
  | walked hwalk htable _ _ _ ih => simp [Join.positions, hwalk, htable, ih]

theorem positions_congr (htables : j'.tables = j.tables)
    (hwalks : ∀ k, (j'.walk? k).isSome = (j.walk? k).isSome) (i : Nat) :
    j'.positions rows i = j.positions rows i := by
  induction i with
  | zero => rfl
  | succ i ih =>
    have hi := hwalks i
    simp only [Join.positions, ih, htables]
    cases hwalk : j.walk? i <;> cases hwalk' : j'.walk? i <;> simp only [hwalk, hwalk'] at hi ⊢
    · cases hi
    · cases hi
    · cases j.tables[i]? <;> rfl

theorem Alike.positions (h : Alike j j') (i : Nat) : j'.positions rows i = j.positions rows i :=
  positions_congr h.tables h.walked i

/-- There is no combination if a table that is walked is empty. -/
theorem sections_positions_of_empty {k : Nat} (hk : k < i) (hwalk : (j.walk? k).isSome)
    {t : Table} (ht : j.tables[k]? = some t) (hempty : (rows t).toList = []) :
    (j.positions rows i).sections = [] := by
  induction i with
  | zero => omega
  | succ i ih =>
    rcases Nat.lt_succ_iff_lt_or_eq.1 hk with hlt | rfl
    · simp [positions, ih hlt]
    · obtain ⟨walk, hwalk⟩ := Option.isSome_iff_exists.1 hwalk
      simp [positions, hwalk, ht, SortedMap.values, hempty]

/-- Seeding takes the first row of every walk, or finds a table that is empty. -/
theorem seed_run (hapart : Table.AllApart tables) (h : Tablespace.Holds tables rows s)
    (htables : j.tables = tables) (hshows : Shows rows j i wheels)
    (hfresh : ∀ w ∈ wheels, w.Fresh)
    (hnew : ∀ k, i ≤ k → ∀ walk, j.walk? k = some walk → ∃ t, j.tables[k]? = some t ∧ walk = t.walk)
    {count : Nat} (hwidth : i + count ≤ j.current.length) :
    ∃ b j' s', (seed count i).run (j, s) = (.ok b, (j', s')) ∧ Tablespace.Holds tables rows s' ∧
      Alike j j' ∧
      match b with
      | true => ∃ wheels', Shows rows j' (i + count) wheels' ∧ ∀ w ∈ wheels', w.Fresh
      | false => (j.positions rows (i + count)).sections = [] := by
  -- on the places still to be seeded; those below `i` show their first rows
  induction count generalizing j s i wheels with
  | zero => exact ⟨true, j, s, rfl, h, .refl j, wheels, hshows, hfresh⟩
  | succ count ih =>
    unfold seed
    rw [Action.run_bind_ok (Moving.run_mover j s)]
    rw [show i + (count + 1) = i + 1 + count by omega]
    cases hwalk : j.walk? i with
    | none =>
      refine ih h htables (.blank hwalk hshows) ?_ (fun k hk => hnew k (by omega)) (by omega)
      intro w hw
      rcases List.mem_cons.1 hw with rfl | hw
      · rfl
      · exact hfresh w hw
    | some walk =>
      obtain ⟨t, htable, rfl⟩ := hnew i (Nat.le_refl i) walk hwalk
      have ht : t ∈ tables := htables ▸ List.mem_of_getElem? htable
      have hwhole : t.walk.Ahead (rows t.walk.table) (rows t).toList := Walk.ahead_walk t (rows t)
      obtain ⟨walk, s₁, hpull, h₁, htable', hahead⟩ := pull_run h hapart ht hwhole j i
      simp only
      rw [Action.run_bind_ok hpull]
      cases hrows : (rows t).toList with
      | nil =>
        refine ⟨false, _, s₁, rfl, h₁, alike_withWalk hwalk walk, ?_⟩
        exact sections_positions_of_empty (k := i) (by omega) (by simp [hwalk]) htable hrows
      | cons c more =>
        have hmoved := moved_withRow hwalk (show i < j.current.length by omega) walk c.2
        have htable₁ : j.tables[i]? = some walk.table := by rw [htable', htable]; rfl
        rw [hrows, ← htable'] at hahead
        have hfresh₁ : ∀ w ∈ (⟨(rows walk.table).values.map some, more.map fun b => some b.2,
            some c.2⟩ : Wheel) :: wheels, w.Fresh := by
          intro w hw
          rcases List.mem_cons.1 hw with rfl | hw
          · simp [Wheel.Fresh, htable', SortedMap.values, hrows, Table.walk, Function.comp_def]
          · exact hfresh w hw
        obtain ⟨b, j', s', hrun, hholds, halike, hresult⟩ :=
          ih h₁ (hmoved.alike.tables.trans htables) (hmoved.shows htable₁ hahead hshows) hfresh₁
            (fun k hk walk' hwalk' => by
              rw [(hmoved.others k (by omega)).walk] at hwalk'
              exact hnew k (by omega) walk' hwalk') (by rw [hmoved.alike.width]; omega)
        refine ⟨b, j', s', hrun, hholds, hmoved.alike.trans halike, ?_⟩
        cases b with
        | true => exact hresult
        | false => exact hmoved.alike.positions (i + 1 + count) ▸ hresult

end Join

end PageDb
