import PageDb.Proofs.Table.Calls

/-!
Looking for the rows that a filter accepts.

`Table.selected` says which rows these are: those of `Table.chosen`, if the filter can judge every row,
and none otherwise.  The walk that looks for them answers with their keys, and changes the contents of no
table in either case.
-/

namespace PageDb

namespace Table

/-- The rows that a filter accepts; the first one that it cannot judge ends the search. -/
def selected (t : Table) (filter : Option Predicate) : List Row → Result (List Row)
  | [] => .ok []
  | row :: rest => do
    let accepted ← Predicate.accepts filter (t.jointRow row)
    let chosen ← t.selected filter rest
    return if accepted then row :: chosen else chosen

/-- What a filter says of a row; if there is none all rows are wanted. -/
def judge (t : Table) (filter : Option Predicate) (row : Row) : Result Truth :=
  match filter with
  | none => .ok .yes
  | some p => p.evaluate (some (t.jointRow row))

/-- The rows of which the filter is true. -/
def chosen (t : Table) (filter : Option Predicate) (rows : List Row) : List Row :=
  rows.filter fun row => t.judge filter row = .ok .yes

variable {t : Table}

theorem accepts_eq_map_judge (filter : Option Predicate) (row : Row) :
    Predicate.accepts filter (t.jointRow row) = (t.judge filter row).map Truth.isTrue := by
  cases filter with
  | none => rfl
  | some p =>
    simp only [Predicate.accepts, judge]
    cases p.evaluate (some (t.jointRow row)) <;> rfl

/-- If the filter can judge every row, those of which it is true are selected. -/
theorem selected_eq_chosen {filter : Option Predicate} {list : List Row}
    (h : ∀ row ∈ list, ∃ truth, t.judge filter row = .ok truth) :
    t.selected filter list = .ok (t.chosen filter list) := by
  induction list with
  | nil => rfl
  | cons row rest ih =>
    obtain ⟨⟨truth, htruth⟩, hrest⟩ := List.forall_mem_cons.1 h
    have hchosen : t.chosen filter (row :: rest) =
        if truth.isTrue then row :: t.chosen filter rest else t.chosen filter rest := by
      rw [chosen, chosen, List.filter_cons, htruth]
      cases truth <;> rfl
    rw [hchosen, selected, accepts_eq_map_judge, htruth, ih hrest]
    rfl

/-- If there is a row that the filter cannot judge, the search fails. -/
theorem exists_selected_error {filter : Option Predicate} {list : List Row} {row : Row} {e : Error}
    (hrow : row ∈ list) (herror : t.judge filter row = .error e) :
    ∃ e', t.selected filter list = .error e' := by
  cases hselected : t.selected filter list with
  | error e' => exact ⟨e', rfl⟩
  | ok found =>
    exfalso
    induction list generalizing found with
    | nil => cases hrow
    | cons other rest ih =>
      obtain ⟨accepted, haccepted, hmore⟩ := Result.bind_eq_ok.1 hselected
      obtain ⟨more, hrest, -⟩ := Result.bind_eq_ok.1 hmore
      rcases List.mem_cons.1 hrow with rfl | hrow
      · rw [accepts_eq_map_judge, herror] at haccepted
        cases haccepted
      · exact ih hrow more hrest

/-- Without a filter all rows are accepted. -/
theorem selected_none (list : List Row) : t.selected none list = .ok list := by
  induction list with
  | nil => rfl
  | cons row rest ih => simp [selected, ih, Predicate.accepts, pure, Except.pure]

theorem selected_sublist {filter : Option Predicate} {list chosen : List Row}
    (h : t.selected filter list = .ok chosen) : chosen.Sublist list := by
  induction list generalizing chosen with
  | nil =>
    cases h
    exact List.Sublist.refl []
  | cons row rest ih =>
    obtain ⟨accepted, -, h⟩ := Result.bind_eq_ok.1 h
    obtain ⟨more, hmore, h⟩ := Result.bind_eq_ok.1 h
    cases h
    cases accepted with
    | false => exact (ih hmore).cons row
    | true => exact (ih hmore).cons_cons row

/-- Rows that lie under their own keys list these keys. -/
theorem keys_eq_map_keyOf {rows : SortedMap Entry Row} (h : ∀ b ∈ rows.toList, t.schema.Binds b) :
    rows.keys = rows.values.map t.keyOf := by
  rw [SortedMap.keys, SortedMap.values, List.map_map]
  exact List.map_congr_left fun b hb => (h b hb).key

theorem run_walking {α : Type} (t : Table) (action : Moving Walk α) (s : Tablespace) :
    (t.walking action).run s = ((action.run (t.walk, s)).1, (action.run (t.walk, s)).2.2) := rfl

section Search

variable {tables : List Table} {rows : Table → SortedMap Entry Row} {s : Tablespace} {walk : Walk}
  {rest : List (Entry × Row)}

/-- The walk judges the rows to come one after the other. -/
theorem acceptedKeys_run (h : Tablespace.Holds tables rows s) (hapart : AllApart tables)
    (ht : walk.table ∈ tables) (hahead : walk.Ahead (rows walk.table) rest) (filter : Predicate)
    {fuel : Nat} (hfuel : rest.length < fuel) :
    ∃ walk' s', (t.acceptedKeys filter fuel).run (walk, s) =
        ((t.selected (some filter) (rest.map Prod.snd)).map (List.map t.keyOf), (walk', s')) ∧
      Tablespace.Holds tables rows s' := by
  induction fuel generalizing walk s rest with
  | zero => omega
  | succ fuel ih =>
    obtain ⟨walk₁, s₁, hnext, h₁, htable, hahead₁⟩ := Walk.nextRow_run h hapart ht hahead
    rw [acceptedKeys, Action.run_bind_ok hnext]
    cases rest with
    | nil => exact ⟨walk₁, s₁, rfl, h₁⟩
    | cons b more =>
      simp only [List.head?_cons, Option.map_some, List.map_cons, selected]
      cases hjudged : Predicate.accepts (some filter) (t.jointRow b.2) with
      | error e => exact ⟨walk₁, s₁, Action.run_bind_error (Action.run_lift _ _), h₁⟩
      | ok accepted =>
        obtain ⟨walk', s', hrun, h'⟩ := ih h₁ (htable ▸ ht) (htable ▸ hahead₁) (by simpa using hfuel)
        refine ⟨walk', s', ?_, h'⟩
        rw [Action.run_bind_ok (Action.run_lift _ _), Action.run_bind_pure, hrun, List.tail_cons]
        cases t.selected (some filter) (more.map Prod.snd) with
        | error e => rfl
        | ok chosen => cases accepted <;> rfl

/-- The search answers with the keys of the rows that the filter accepts, in key order, and changes the
contents of no table. -/
theorem matchingKeys_run (h : Tablespace.Holds tables rows s) (hapart : AllApart tables)
    (ht : t ∈ tables) (hbinds : ∀ b ∈ (rows t).toList, t.schema.Binds b) (filter : Option Predicate) :
    ∃ s', (t.matchingKeys filter).run s =
        ((t.selected filter (rows t).values).map (List.map t.keyOf), s') ∧
      Tablespace.Holds tables rows s' := by
  cases filter with
  | none =>
    obtain ⟨hstands, hrows⟩ := h t ht
    refine ⟨s, ?_, h⟩
    show t.keys.run s = _
    rw [hstands.keys, hrows, selected_none, keys_eq_map_keyOf hbinds]
    rfl
  | some filter =>
    have hfuel : (rows t).toList.length < (t.store s).rowCount + 1 := by
      rw [h.rowCount ht]
      exact Nat.lt_succ_self _
    have hwalk : t.walk.table ∈ tables := ht
    obtain ⟨walk', s', hrun, h'⟩ :=
      acceptedKeys_run (t := t) h hapart hwalk (Walk.ahead_walk t (rows t)) filter hfuel
    refine ⟨s', ?_, h'⟩
    rw [matchingKeys, Action.run_bind_ok (Action.run_get s), run_walking, hrun]
    rfl

end Search

section Steady

variable {I : Tablespace → Prop} {s : Tablespace} {filter : Option Predicate} (hI : t.Steady I)
  (h : I s)

include hI h

/-- Looking for the rows changes none, and keeps what the work on the table keeps. -/
theorem Steady.matchingKeys (filter : Option Predicate) :
    ∃ s', (t.matchingKeys filter).run s =
        ((t.selected filter (t.contents s).values).map (List.map t.keyOf), s') ∧
      I s' ∧ t.contents s' = t.contents s := by
  have hholds : Tablespace.Holds [t] (fun u => u.contents s) s := by
    simpa [Tablespace.Holds] using hI.stands h
  obtain ⟨s', hrun, hholds'⟩ :=
    matchingKeys_run hholds (by simp [AllApart]) List.mem_cons_self (hI.binds h) filter
  have hkept := ((hI.upholds false).matchingKeys filter s h).1
  rw [hrun] at hkept
  exact ⟨s', hrun, hkept, (hholds' t List.mem_cons_self).2⟩

/-- The keys of what is found are keys of the table. -/
theorem Steady.selected_keys_sublist {found : List Row}
    (hfound : t.selected filter (t.contents s).values = .ok found) :
    (found.map t.keyOf).Sublist (t.contents s).keys := by
  rw [keys_eq_map_keyOf (hI.binds h)]
  exact (selected_sublist hfound).map t.keyOf

/-- The chosen rows are told by their keys. -/
theorem Steady.key_mem_chosen_iff {b : Entry × Row} (hb : b ∈ (t.contents s).toList) :
    b.1 ∈ (t.chosen filter (t.contents s).values).map t.keyOf ↔ t.judge filter b.2 = .ok .yes := by
  constructor
  · intro hkey
    obtain ⟨row, hrow, hsame⟩ := List.mem_map.1 hkey
    obtain ⟨hrow, hjudged⟩ := List.mem_filter.1 hrow
    obtain ⟨c, hc, rfl⟩ := List.mem_map.1 hrow
    obtain rfl : b = c := by
      have hfirst := hI.get?_contents h hb
      have hsecond := hI.get?_contents h hc
      rw [show c.1 = b.1 from (hI.key_eq h hc).trans hsame, hfirst] at hsecond
      exact Prod.ext ((hI.key_eq h hc).trans hsame).symm (Option.some.inj hsecond)
    exact of_decide_eq_true hjudged
  · intro hjudged
    refine List.mem_map.2 ⟨b.2, List.mem_filter.2 ⟨?_, decide_eq_true hjudged⟩, (hI.key_eq h hb).symm⟩
    exact List.mem_map.2 ⟨b, hb, rfl⟩

end Steady

end Table

end PageDb
