import PageDb.Proofs.Query.Delivery
import PageDb.Proofs.Table.Creation

/-!
Joins on the equality of two columns, and the same rows by a filter.

Access by key compares integers exactly, and a filter compares them as eight-byte floating-point
numbers.  `Query.rows_equijoin` says which filtered rows the join delivers: those that access by key
reaches, which are all of them unless rounding brings values of the two columns together.
-/

namespace PageDb

namespace Join

/-- Whether two entries find the same row of a table. -/
def sameRow (tables : List Table) (s : Tablespace) (k : Nat) (a b : Entry) : Bool :=
  match tables[k]? with
  | some t => decide ((t.contents s).get? a = (t.contents s).get? b)
  | none => true

/-- Whether access by key reaches a joined row. -/
def reachesBy (tables : List Table) (s : Tablespace) (left right : ColumnRef) (row : JointRow) : Bool :=
  let a := row.entryAt left.offset
  let b := row.entryAt right.offset
  match planBy tables left right with
  | .product => true
  | .lookup target _ _ => sameRow tables s target a b
  | .merge => sameRow tables s left.table a b && sameRow tables s right.table a b

/-- Whether a join on the equality of two columns reaches a joined row. -/
def reaches (tables : List Table) (s : Tablespace) (l r : String) (row : JointRow) : Bool :=
  match Heading.resolve (tables.map Table.heading) l, Heading.resolve (tables.map Table.heading) r with
  | .ok left, .ok right => reachesBy tables s left right row
  | _, _ => true

variable {tables : List Table} {s : Tablespace} {made : List Row} {l r : String}
  {left right key other : ColumnRef} {t u : Table} {row row' : Row} {a b : Entry}

/-- An entry finds the row of a key if a predicate finds the two equal and both find the same row. -/
theorem get?_iff (h : Tablespace.Orderly tables s)
    (hkey : Cell tables (fun t => t.contents s) made key t row b) (hprimary : isPrimary tables key = true)
    (hother : Cell tables (fun t => t.contents s) made other u row' a) :
    (t.contents s).get? a = some row ↔
      a.equates b = true ∧ (t.contents s).get? a = (t.contents s).get? b := by
  have ht : t ∈ tables := List.mem_of_getElem? hkey.table
  obtain ⟨rfl, htype, hnull⟩ := hkey.primary (h.proper t ht) hprimary
  obtain ⟨hkeyed, hown⟩ := h.holds.found ht hkey.mem
  constructor
  · intro hget
    have hmeet := meeting_of_get? h ht hother.fits hget
    refine ⟨Entry.equates_iff.2 ⟨?_, hnull, ?_⟩, hget.trans hown.symm⟩
    · rintro rfl
      rw [(Entry.meetingPlace_eq_bottom_iff _ _).2 rfl] at hmeet
      exact hnull ((Entry.meetingPlace_eq_bottom_iff _ _).1 hmeet.symm)
    · exact Entry.rounded_eq_of_meeting_eq hmeet hother.fits hkeyed.fits
  · rintro ⟨-, hsame⟩
    exact hsame.trans hown

/-- Unless rounding brings values together, equal entries find the same row. -/
theorem get?_eq_of_equates (h : Tablespace.Orderly tables s)
    (hkey : Cell tables (fun t => t.contents s) made key t row b) (hprimary : isPrimary tables key = true)
    (hother : Cell tables (fun t => t.contents s) made other u row' a)
    (hrounds : key.type.roundsWith other.type = false) (hequal : a.equates b = true) :
    (t.contents s).get? a = (t.contents s).get? b := by
  have ht : t ∈ tables := List.mem_of_getElem? hkey.table
  obtain ⟨rfl, htype, -⟩ := hkey.primary (h.proper t ht) hprimary
  obtain ⟨hkeyed, hown⟩ := h.holds.found ht hkey.mem
  rw [htype] at hrounds
  have hmeet := Entry.meeting_eq_of_rounded_eq (by rwa [ColumnType.roundsWith_comm])
    (Entry.equates_iff.1 hequal).2.2 hother.fits hkeyed.fits
  rw [get?_of_meeting h ht hother.fits hkey.mem (Entry.strict_of_not_rounds hrounds) hmeet, hown]

/-- A join has access by key only if two columns decide so. -/
theorem planFor_cases (tables : List Table) (on : Option Predicate) :
    planFor tables on = .product ∨ ∃ left right, planFor tables on = planBy tables left right := by
  unfold planFor
  dsimp only
  split
  · split
    · exact .inr ⟨_, _, rfl⟩
    · exact .inl rfl
  · exact .inl rfl

/-- The plans by which a join on the equality of two columns has access by key. -/
theorem planBy_cases (tables : List Table) (left right : ColumnRef) :
    planBy tables left right = .product ∨
      left.table ≠ right.table ∧ left.type.isNumeric = right.type.isNumeric ∧
        (planBy tables left right = .merge ∧ tables.length = 2 ∧
            isPrimary tables left = true ∧ isPrimary tables right = true ∨
          planBy tables left right = .lookup left.table right.table right.column ∧
            isPrimary tables left = true ∨
          planBy tables left right = .lookup right.table left.table left.column ∧
            isPrimary tables right = true) := by
  unfold planBy
  split
  · exact .inl rfl
  rename_i hcomparable
  rw [not_or] at hcomparable
  obtain ⟨hne, hkind⟩ := hcomparable
  split
  · rename_i hboth
    exact .inr ⟨hne, Decidable.not_not.1 hkind, .inl ⟨rfl, hboth.2.2, hboth.1, hboth.2.1⟩⟩
  split
  · rename_i hleft
    exact .inr ⟨hne, Decidable.not_not.1 hkind, .inr (.inl ⟨rfl, hleft⟩)⟩
  split
  · rename_i hright
    exact .inr ⟨hne, Decidable.not_not.1 hkind, .inr (.inr ⟨rfl, hright⟩)⟩
  · exact .inl rfl

theorem sameRow_eq_true_iff (ht : tables[key.table]? = some t) (a b : Entry) :
    sameRow tables s key.table a b = true ↔ (t.contents s).get? a = (t.contents s).get? b := by
  simp [sameRow, ht]

/-- A choice finds the row of a key when the filter accepts it and access by key reaches it. -/
theorem finds_iff (h : Tablespace.Orderly tables s)
    (hkey : Cell tables (fun t => t.contents s) made key t row b) (hprimary : isPrimary tables key = true)
    (hother : Cell tables (fun t => t.contents s) made other u row' a) :
    Finds tables (fun t => t.contents s) key.table other.table other.column made ↔
      a.equates b = true ∧ sameRow tables s key.table a b = true := by
  rw [sameRow_eq_true_iff hkey.table, ← get?_iff h hkey hprimary hother]
  constructor
  · rintro ⟨t', row₁, found, ht', hrow₁, hfound, hget⟩
    rw [hkey.table] at ht'
    rw [hother.chosen] at hrow₁
    rw [hkey.chosen] at hfound
    cases ht'
    cases hrow₁
    cases hfound
    rwa [hother.entry, Option.getD_some] at hget
  · intro hget
    refine ⟨t, row', row, hkey.table, hother.chosen, hkey.chosen, ?_⟩
    rw [hother.entry, Option.getD_some]
    exact hget

/-- The rows of two keys find each other when the filter accepts them and access by key reaches
them. -/
theorem pair_iff (h : Tablespace.Orderly tables s)
    (hleft : Cell tables (fun t => t.contents s) made left t row a)
    (hright : Cell tables (fun t => t.contents s) made right u row' b)
    (hprimary : isPrimary tables left = true) (hprimary' : isPrimary tables right = true) :
    (t.contents s).get? (row'.keyAt u.primaryIndex) = some row ∧
        (u.contents s).get? (row.keyAt t.primaryIndex) = some row' ↔
      a.equates b = true ∧ sameRow tables s left.table a b = true ∧
        sameRow tables s right.table a b = true := by
  have ht : t ∈ tables := List.mem_of_getElem? hleft.table
  have hu : u ∈ tables := List.mem_of_getElem? hright.table
  rw [← (hleft.primary (h.proper t ht) hprimary).1, ← (hright.primary (h.proper u hu) hprimary').1,
    get?_iff h hleft hprimary hright, get?_iff h hright hprimary' hleft,
    sameRow_eq_true_iff hleft.table, sameRow_eq_true_iff hright.table, Entry.equates_comm b a]
  constructor
  · rintro ⟨⟨hequal, hsame⟩, -, hsame'⟩
    exact ⟨hequal, hsame.symm, hsame'⟩
  · rintro ⟨hequal, hsame, hsame'⟩
    exact ⟨⟨hequal, hsame.symm⟩, hequal, hsame'⟩

/-- Merging meets a choice when the filter accepts it and access by key reaches it. -/
theorem merged_iff (h : Tablespace.Orderly [t, u] s)
    (hmade : made ∈ choices [t, u] fun t => t.contents s) {t₁ t₂ : Table}
    (hfirst : left.table = 0) (hsecond : right.table = 1)
    (hleft : Cell [t, u] (fun t => t.contents s) made left t₁ row a)
    (hright : Cell [t, u] (fun t => t.contents s) made right t₂ row' b)
    (hprimary : isPrimary [t, u] left = true) (hprimary' : isPrimary [t, u] right = true) :
    (∃ row row', made = [row, row'] ∧
        (t.contents s).get? (row'.keyAt u.primaryIndex) = some row ∧
        (u.contents s).get? (row.keyAt t.primaryIndex) = some row') ↔
      a.equates b = true ∧ sameRow [t, u] s left.table a b = true ∧
        sameRow [t, u] s right.table a b = true := by
  have hlength : made.length = 2 := (mem_choices_iff.1 hmade).length_eq
  obtain ⟨x, y, rfl⟩ := List.length_eq_two.1 hlength
  have htable := hleft.table
  have htable' := hright.table
  have hchosen := hleft.chosen
  have hchosen' := hright.chosen
  rw [hfirst] at htable hchosen
  rw [hsecond] at htable' hchosen'
  cases htable
  cases htable'
  cases hchosen
  cases hchosen'
  rw [← pair_iff h hleft hright hprimary hprimary']
  constructor
  · rintro ⟨_, _, hsame, hrow, hrow'⟩
    cases hsame
    exact ⟨hrow, hrow'⟩
  · rintro ⟨hrow, hrow'⟩
    exact ⟨row, row', rfl, hrow, hrow'⟩

/-- What a choice of rows looks like side by side. -/
def sideBySide (tables : List Table) (made : List Row) : JointRow :=
  .ofRows (tables.map Table.heading) made

theorem planFor_equates (hl : Heading.resolve (tables.map Table.heading) l = .ok left)
    (hr : Heading.resolve (tables.map Table.heading) r = .ok right) :
    planFor tables (some (.equates l r)) = planBy tables left right := by
  simp only [planFor, Predicate.equates, Option.bind_some, Predicate.comparison?, hl, hr]

/-- What access by key reaches, by the cells of the two columns. -/
theorem reaches_eq (hl : Heading.resolve (tables.map Table.heading) l = .ok left)
    (hr : Heading.resolve (tables.map Table.heading) r = .ok right)
    (hleft : Cell tables (fun t => t.contents s) made left t row a)
    (hright : Cell tables (fun t => t.contents s) made right u row' b) :
    reaches tables s l r (sideBySide tables made) =
      match planBy tables left right with
      | .product => true
      | .lookup target _ _ => sameRow tables s target a b
      | .merge => sameRow tables s left.table a b && sameRow tables s right.table a b := by
  simp only [reaches, hl, hr, reachesBy, sideBySide, hleft.offset, hright.offset]

theorem sameRow_comm (k : Nat) (a b : Entry) : sameRow tables s k a b = sameRow tables s k b a := by
  unfold sameRow
  cases tables[k]? with
  | none => rfl
  | some t => simp only [eq_comm]

theorem lt_of_isPrimary (h : isPrimary tables key = true) : key.table < tables.length := by
  rw [isPrimary] at h
  by_cases hk : key.table < tables.length
  · exact hk
  · simp [hk] at h

/-- A join that has access by key delivers the choices that the filter accepts and access by key
reaches. -/
theorem delivers_equijoin (h : Tablespace.Orderly tables s)
    (hl : Heading.resolve (tables.map Table.heading) l = .ok left)
    (hr : Heading.resolve (tables.map Table.heading) r = .ok right)
    (hplan : planBy tables left right ≠ .product) :
    Delivers tables (fun t => t.contents s) (some .always) (ofTables tables (some (.equates l r))) s
      fun made => Predicate.accepts (some (.equates l r)) (sideBySide tables made) = .ok true ∧
        reaches tables s l r (sideBySide tables made) = true := by
  obtain ⟨hne, hkind, hcases⟩ := (planBy_cases tables left right).resolve_left hplan
  have hfor := planFor_equates hl hr
  have haccepts {made : List Row} {t u : Table} {row row' : Row} {a b : Entry}
      (hleft : Cell tables (fun t => t.contents s) made left t row a)
      (hright : Cell tables (fun t => t.contents s) made right u row' b) :
      Predicate.accepts (some (.equates l r)) (sideBySide tables made) = .ok true ↔
        a.equates b = true := by
    rw [sideBySide, accepts_equates hl hr hleft hright hkind, Except.ok.injEq]
  rcases hcases with ⟨hmerge, hlength, hprimary, hprimary'⟩ | ⟨hlookup, hprimary⟩ | ⟨hlookup, hprimary⟩
  · obtain ⟨t, u, rfl⟩ := List.length_eq_two.1 hlength
    refine (delivers_of_merge h (hfor.trans hmerge)).congr fun made hmade => ?_
    obtain ⟨t₁, row₁, a, hleft⟩ := exists_cell h hmade hl
    obtain ⟨t₂, row₂, b, hright⟩ := exists_cell h hmade hr
    rw [haccepts hleft hright, reaches_eq hl hr hleft hright, hmerge, Bool.and_eq_true]
    have hlt := lt_of_isPrimary hprimary
    have hlt' := lt_of_isPrimary hprimary'
    rw [hlength] at hlt hlt'
    rcases Nat.lt_or_ge left.table right.table with hleftFirst | hrightFirst
    · exact merged_iff h hmade (by omega) (by omega) hleft hright hprimary hprimary'
    · rw [merged_iff h hmade (by omega) (by omega) hright hleft hprimary' hprimary,
        Entry.equates_comm, sameRow_comm, sameRow_comm left.table]
      exact and_congr_right fun _ => and_comm
  · refine (delivers_of_lookup h (hfor.trans hlookup) (lt_of_isPrimary hprimary) hne.symm).congr
      fun made hmade => ?_
    obtain ⟨t, row, a, hleft⟩ := exists_cell h hmade hl
    obtain ⟨u, row', b, hright⟩ := exists_cell h hmade hr
    rw [haccepts hleft hright, reaches_eq hl hr hleft hright, hlookup,
      finds_iff h hleft hprimary hright, Entry.equates_comm, sameRow_comm]
  · refine (delivers_of_lookup h (hfor.trans hlookup) (lt_of_isPrimary hprimary) hne).congr
      fun made hmade => ?_
    obtain ⟨t, row, a, hleft⟩ := exists_cell h hmade hl
    obtain ⟨u, row', b, hright⟩ := exists_cell h hmade hr
    rw [haccepts hleft hright, reaches_eq hl hr hleft hright, hlookup,
      finds_iff h hright hprimary hleft]

/-- A query over a join judges the choices that the join delivers, in some order. -/
theorem rows_of_delivers {condition : Option Predicate} {j : Join} {hits : List Row → Prop}
    [DecidablePred hits] (h : Tablespace.Orderly tables s)
    (hdelivers : Delivers tables (fun t => t.contents s) condition j s hits) (q : Option Predicate) :
    ∃ delivered : List (List Row), delivered.Perm ((choices tables fun t => t.contents s).filter hits) ∧
      (Query.rows.run (⟨.join j, q, {}⟩, s)).1 =
        sift (judge condition q) (delivered.map (sideBySide tables)) := by
  obtain ⟨hover, later, hmakes, hlength, hnodup, hmem⟩ := hdelivers
  refine ⟨later.filterMap id, ?_, Query.rows_run q hover hmakes hlength⟩
  have hchoices : (choices tables fun t => t.contents s).Nodup :=
    nodup_choices fun t => h.holds.nodup_values
  refine (List.perm_ext_iff_of_nodup hnodup (hchoices.filter _)).2 fun made => ?_
  rw [hmem, List.mem_filter, decide_eq_true_iff]

/-- What is delivered and what is left to check decide together as the filter does, where access by
key reaches. -/
def Decides (tables : List Table) (s : Tablespace) (l r : String) (condition : Option Predicate)
    (hits : List Row → Prop) : Prop :=
  ∀ made ∈ choices tables fun t => t.contents s, ∀ q b₁ b₂,
    Predicate.accepts (some (.equates l r)) (sideBySide tables made) = .ok b₁ →
    Predicate.accepts q (sideBySide tables made) = .ok b₂ →
    ∃ b, judge condition q (sideBySide tables made) = .ok b ∧
      (hits made ∧ b = true ↔
        (b₁ && b₂) = true ∧ reaches tables s l r (sideBySide tables made) = true)

/-- A join without access by key checks the equality itself. -/
theorem decides_of_product (hplan : planFor tables (some (.equates l r)) = .product) :
    Decides tables s l r (some (.equates l r)) fun _ => True := by
  intro made hmade q b₁ b₂ hp hq
  have hreaches : reaches tables s l r (sideBySide tables made) = true := by
    cases hl : Heading.resolve (tables.map Table.heading) l with
    | error e => simp only [reaches, hl]
    | ok left =>
      cases hr : Heading.resolve (tables.map Table.heading) r with
      | error e => simp only [reaches, hl, hr]
      | ok right =>
        rw [planFor_equates hl hr] at hplan
        simp only [reaches, hl, hr, reachesBy, hplan]
  refine ⟨b₁ && b₂, ?_, by simp [hreaches]⟩
  rw [judge, hp, Result.ok_bind]
  cases b₁ with
  | false => rfl
  | true => exact hq

/-- However it is planned, a join on the equality of two columns delivers and checks what the filter
accepts, where access by key reaches. -/
theorem exists_delivers (h : Tablespace.Orderly tables s) (l r : String) :
    ∃ condition hits,
      Delivers tables (fun t => t.contents s) condition (ofTables tables (some (.equates l r))) s hits ∧
        Decides tables s l r condition hits := by
  by_cases hplan : planFor tables (some (.equates l r)) = .product
  · exact ⟨_, _, delivers_of_product h hplan, decides_of_product hplan⟩
  cases hl : Heading.resolve (tables.map Table.heading) l with
  | error e => simp [planFor, Predicate.equates, Predicate.comparison?, hl] at hplan
  | ok left =>
    cases hr : Heading.resolve (tables.map Table.heading) r with
    | error e => simp [planFor, Predicate.equates, Predicate.comparison?, hl, hr] at hplan
    | ok right =>
      rw [planFor_equates hl hr] at hplan
      refine ⟨_, _, delivers_equijoin h hl hr hplan, ?_⟩
      intro made hmade q b₁ b₂ hp hq
      refine ⟨b₂, by rw [judge, show Predicate.accepts (some .always) (sideBySide tables made) =
        .ok true from rfl, Result.ok_bind]; exact hq, ?_⟩
      simp only [hp, Except.ok.injEq, Bool.and_eq_true]
      exact ⟨fun hall => ⟨⟨hall.1.1, hall.2⟩, hall.1.2⟩, fun hall => ⟨⟨hall.1.1, hall.2⟩, hall.1.2⟩⟩

/-- Unless rounding brings values of the two columns together, access by key reaches whatever the
filter accepts. -/
theorem reaches_of_accepts (h : Tablespace.Orderly tables s)
    (hmade : made ∈ choices tables fun t => t.contents s)
    (hrounds : ∀ left right, Heading.resolve (tables.map Table.heading) l = .ok left →
      Heading.resolve (tables.map Table.heading) r = .ok right →
      left.type.roundsWith right.type = false)
    (haccepts : Predicate.accepts (some (.equates l r)) (sideBySide tables made) = .ok true) :
    reaches tables s l r (sideBySide tables made) = true := by
  cases hl : Heading.resolve (tables.map Table.heading) l with
  | error e => simp only [reaches, hl]
  | ok left =>
    cases hr : Heading.resolve (tables.map Table.heading) r with
    | error e => simp only [reaches, hl, hr]
    | ok right =>
      have hrounds := hrounds left right hl hr
      obtain ⟨t, row, a, hleft⟩ := exists_cell h hmade hl
      obtain ⟨u, row', b, hright⟩ := exists_cell h hmade hr
      rw [reaches_eq hl hr hleft hright]
      rcases planBy_cases tables left right with hproduct | ⟨-, hkind, hcases⟩
      · rw [hproduct]
      rw [sideBySide, accepts_equates hl hr hleft hright hkind, Except.ok.injEq] at haccepts
      have hsame (hprimary : isPrimary tables left = true) :
          sameRow tables s left.table a b = true := by
        rw [sameRow_comm, sameRow_eq_true_iff hleft.table]
        exact get?_eq_of_equates h hleft hprimary hright hrounds (by rwa [Entry.equates_comm])
      have hsame' (hprimary : isPrimary tables right = true) :
          sameRow tables s right.table a b = true := by
        rw [sameRow_eq_true_iff hright.table]
        rw [ColumnType.roundsWith_comm] at hrounds
        exact get?_eq_of_equates h hright hprimary hleft hrounds haccepts
      rcases hcases with ⟨hmerge, -, hprimary, hprimary'⟩ | ⟨hlookup, hprimary⟩ | ⟨hlookup, hprimary⟩
      · rw [hmerge]
        exact Bool.and_eq_true_iff.2 ⟨hsame hprimary, hsame' hprimary'⟩
      · rw [hlookup]
        exact hsame hprimary
      · rw [hlookup]
        exact hsame' hprimary

/-- Choices that are delivered and pass one test are the choices that pass another one and are
reached. -/
theorem perm_filter {α β : Type} (f : α → β) {all delivered chosen : List α} {hits : α → Bool}
    {accepted checked reached : β → Bool} (hall : all.Perm chosen)
    (hdelivered : delivered.Perm (chosen.filter hits))
    (h : ∀ a ∈ chosen, (hits a && checked (f a)) = (accepted (f a) && reached (f a))) :
    ((delivered.map f).filter checked).Perm (((all.map f).filter accepted).filter reached) := by
  calc
    List.Perm ((delivered.map f).filter checked) (((chosen.filter hits).map f).filter checked) :=
      (hdelivered.map f).filter _
    _ = (chosen.filter fun a => hits a && checked (f a)).map f := by
      rw [List.filter_map, List.filter_filter]
      simp only [Function.comp_def, Bool.and_comm]
    _ = (chosen.filter fun a => accepted (f a) && reached (f a)).map f := by
      rw [List.filter_congr h]
    _ = ((chosen.map f).filter accepted).filter reached := by
      rw [List.filter_filter, List.filter_map]
      simp only [Function.comp_def, Bool.and_comm]
    List.Perm _ (((all.map f).filter accepted).filter reached) := ((hall.symm.map f).filter _).filter _

/-- Nothing is filtered out exactly if everything passes. -/
theorem perm_iff_of_perm_filter {α : Type} {kept all : List α} {p : α → Bool}
    (h : kept.Perm (all.filter p)) : kept.Perm all ↔ ∀ a ∈ all, p a = true := by
  constructor
  · intro hsame
    exact List.length_filter_eq_length_iff.1 (h.symm.trans hsame).length_eq
  · intro hall
    rwa [List.filter_eq_self.2 hall] at h

end Join

/-- A join on the equality of two columns delivers those of the filtered rows that access by key
reaches.  These are all of them unless rounding brings values of the two columns together. -/
theorem Query.rows_equijoin {tables : List Table} {s : Tablespace} (h : Tablespace.Orderly tables s)
    (l r : String) (q : Option Predicate) {plain : List JointRow}
    (hplain : (Query.rows.run ((Query.ofJoin tables none).withSelection
      (some ((Predicate.equates l r).restrict q)), s)).1 = .ok plain) :
    ∃ joined, (Query.rows.run ((Query.ofJoin tables (some (.equates l r))).withSelection q, s)).1 =
        .ok joined ∧
      joined.Perm (plain.filter (Join.reaches tables s l r)) ∧
      (joined.Perm plain ↔ ∀ row ∈ plain, Join.reaches tables s l r row = true) ∧
      ((∀ left right, Heading.resolve (tables.map Table.heading) l = .ok left →
          Heading.resolve (tables.map Table.heading) r = .ok right →
          left.type.roundsWith right.type = false) →
        joined.Perm plain) := by
  classical
  obtain ⟨condition, hits, hdelivers, hdecides⟩ := Join.exists_delivers h l r
  obtain ⟨all, hall, hrunAll⟩ := Join.rows_of_delivers h
    (Join.delivers_of_product h (show Join.planFor tables none = .product from rfl))
    (some ((Predicate.equates l r).restrict q))
  obtain ⟨delivered, hdelivered, hrun⟩ := Join.rows_of_delivers h hdelivers q
  simp only [decide_true, List.filter_true] at hall
  have hplain := hrunAll.symm.trans hplain
  obtain ⟨hanswers, rfl⟩ := sift_eq_ok_iff.1 hplain
  -- on every choice the filter answers, and then so does what the join has left to check
  have heach (made : List Row) (hmade : made ∈ Join.choices tables fun t => t.contents s) :
      ∃ b₁ b₂, Predicate.accepts (some (.equates l r)) (Join.sideBySide tables made) = .ok b₁ ∧
        Predicate.accepts q (Join.sideBySide tables made) = .ok b₂ ∧
        passes (Join.judge none (some ((Predicate.equates l r).restrict q)))
          (Join.sideBySide tables made) = (b₁ && b₂) := by
    obtain ⟨b, hb⟩ := hanswers _ (List.mem_map_of_mem (hall.mem_iff.2 hmade))
    obtain ⟨b₁, b₂, hp, hq, rfl⟩ := Predicate.accepts_restrict hb
    exact ⟨b₁, b₂, hp, hq, passes_of_ok hb⟩
  have hagree : ∀ made ∈ Join.choices tables fun t => t.contents s,
      (decide (hits made) && passes (Join.judge condition q) (Join.sideBySide tables made)) =
        (passes (Join.judge none (some ((Predicate.equates l r).restrict q)))
          (Join.sideBySide tables made) && Join.reaches tables s l r (Join.sideBySide tables made)) := by
    intro made hmade
    obtain ⟨b₁, b₂, hp, hq, hpasses⟩ := heach made hmade
    obtain ⟨b, hb, hiff⟩ := hdecides made hmade q b₁ b₂ hp hq
    rw [hpasses, passes_of_ok hb, Bool.eq_iff_iff]
    simpa using hiff
  have hperm := Join.perm_filter (Join.sideBySide tables) hall hdelivered hagree
  have hall_iff := Join.perm_iff_of_perm_filter hperm
  refine ⟨_, hrun.trans (sift_eq_ok_iff.2 ⟨?_, rfl⟩), hperm, hall_iff, fun hrounds => ?_⟩
  · intro row hrow
    obtain ⟨made, hmade, rfl⟩ := List.mem_map.1 hrow
    have hmade := (List.mem_filter.1 (hdelivered.mem_iff.1 hmade)).1
    obtain ⟨b₁, b₂, hp, hq, -⟩ := heach made hmade
    obtain ⟨b, hb, -⟩ := hdecides made hmade q b₁ b₂ hp hq
    exact ⟨b, hb⟩
  · refine hall_iff.2 fun row hrow => ?_
    obtain ⟨hrow, hpass⟩ := List.mem_filter.1 hrow
    obtain ⟨made, hmade, rfl⟩ := List.mem_map.1 hrow
    have hmade := hall.mem_iff.1 hmade
    obtain ⟨b₁, b₂, hp, -, hpasses⟩ := heach made hmade
    rw [hpasses, Bool.and_eq_true] at hpass
    rw [hpass.1] at hp
    exact Join.reaches_of_accepts h hmade hrounds hp

/-- A table of keys only. -/
def keyTable (number : Nat) (name column : String) (type : ColumnType) : Table where
  number := number
  database := "db"
  name := name
  schema := ⟨[({ name := column, type := type } : Column).asPrimary], 0⟩

/-- Two tables of keys of one type. -/
def keyTables (type : ColumnType) : List Table :=
  [keyTable 1 "u" "x" type, keyTable 2 "v" "y" type]

/-- The two tables once the keys of the given literals have been added, table by table. -/
def withKeys (type : ColumnType) (literals : List (List String)) : Tablespace :=
  Table.runAll
    (((keyTables type).zip literals).flatMap fun b =>
      b.2.map fun literal => (b.1, .insertLiterals none [literal] false))
    ((keyTables type).foldr (fun t s => s.create {} t) {})

/-- Two tables that have been created on an empty disk. -/
theorem orderly_pair {t u : Table} (ht : t.schema.Proper) (hu : u.schema.Proper)
    (hapart : t.Apart u) :
    Tablespace.Orderly [t, u] ([t, u].foldr (fun t s => s.create {} t) {}) := by
  have hsecond := (Tablespace.orderly_nil {}).create Directory.ordered_empty hu (by simp) {}
  have hboth : t.Apart u ∧ u.Apart t := ⟨hapart, hapart.number.symm, hapart.stem.symm⟩
  exact hsecond.create Directory.ordered_empty ht
    (by simpa only [List.mem_singleton, forall_eq] using hboth) {}

theorem orderly_keyTables (type type' : ColumnType) :
    Tablespace.Orderly [keyTable 1 "u" "x" type, keyTable 2 "v" "y" type']
      ([keyTable 1 "u" "x" type, keyTable 2 "v" "y" type'].foldr (fun t s => s.create {} t) {}) :=
  orderly_pair ⟨_, rfl, rfl⟩ ⟨_, rfl, rfl⟩
    ⟨show 1 ≠ 2 by decide, show PageFile.tableStem "db" "u" ≠ PageFile.tableStem "db" "v" by decide⟩

theorem orderly_withKeys (type : ColumnType) (literals : List (List String)) :
    Tablespace.Orderly (keyTables type) (withKeys type literals) := by
  refine (orderly_keyTables type type).runAll fun c hc => ?_
  obtain ⟨b, hb, hc⟩ := List.mem_flatMap.1 hc
  obtain ⟨literal, -, rfl⟩ := List.mem_map.1 hc
  exact ⟨(List.of_mem_zip hb).1, trivial⟩

/-- Keys that only one of the tables has are left out, whichever way the rows are found. -/
theorem rows_equijoin_of_ints :
    ∃ joined, (Query.rows.run ((Query.ofJoin (keyTables .int) (some (.equates "x" "y"))).withSelection
        none, withKeys .int [["3", "1", "2"], ["2", "4", "3"]])).1 = .ok joined ∧
      (joined.map JointRow.entries).Perm [[.int 2, .int 2], [.int 3, .int 3]] := by
  have hentries : ((Query.rows.run ((Query.ofJoin (keyTables .int) none).withSelection
      (some ((Predicate.equates "x" "y").restrict none)),
        withKeys .int [["3", "1", "2"], ["2", "4", "3"]])).1.map (List.map JointRow.entries)) =
      .ok [[.int 2, .int 2], [.int 3, .int 3]] := by decide +kernel
  obtain ⟨plain, hplain, hrows⟩ := Result.map_eq_ok.1 hentries
  obtain ⟨joined, hjoined, -, -, hperm⟩ :=
    Query.rows_equijoin (orderly_withKeys .int [["3", "1", "2"], ["2", "4", "3"]]) "x" "y" none hplain
  refine ⟨joined, hjoined, hrows ▸ (hperm ?_).map _⟩
  rintro left right ⟨⟩ ⟨⟩
  rfl

/-- The filter compares two long numbers after rounding them to eight bytes of floating point and
finds them equal; access by key compares them exactly and does not bring them together. -/
theorem rows_equijoin_misses :
    ((Query.rows.run ((Query.ofJoin (keyTables .long) none).withSelection
        (some ((Predicate.equates "x" "y").restrict none)),
          withKeys .long [["9007199254740992"], ["9007199254740993"]])).1.map
            (List.map JointRow.entries)) =
        .ok [[.long 9007199254740992, .long 9007199254740993]] ∧
      (Query.rows.run ((Query.ofJoin (keyTables .long) (some (.equates "x" "y"))).withSelection none,
        withKeys .long [["9007199254740992"], ["9007199254740993"]])).1 = .ok [] := by
  decide +kernel

end PageDb
