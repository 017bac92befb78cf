import Mathlib.Data.List.Chain
import PageDb.Proofs.Store.Failing

/-!
How rows that are only added lie on pages.

A row goes to the page opened last if it fits there, and opens the next page otherwise: this is next
fit.  Which pages have been evicted meanwhile does not matter, since the page opened last was visited
last and is the one that the next row finds in memory.  So the pages are a function of the rows and the
budget alone.
-/

namespace PageDb

/-! ## Next fit -/

/-- Puts a row into the last group if it fits there, and into a new group otherwise. -/
def place (budget : Nat) (groups : List (List Row)) (row : Row) : List (List Row) :=
  match groups.getLast? with
  | some last =>
    if rowBytes last + row.byteSize ≤ budget then groups.dropLast ++ [last ++ [row]]
    else groups ++ [[row]]
  | none => [[row]]

/-- Splits rows into groups, in their order. -/
def nextFit (budget : Nat) (rows : List Row) : List (List Row) := rows.foldl (place budget) []

/-- Groups of which each has a row and keeps the budget unless it is a single row, and of which none
has room for the first row of the next one. -/
structure NextFit (budget : Nat) (groups : List (List Row)) : Prop where
  nonempty : [] ∉ groups
  within : ∀ group ∈ groups, rowBytes group ≤ budget ∨ group.length = 1
  full : groups.IsChain fun group next => ∀ row ∈ next.head?, budget < rowBytes group + row.byteSize

/-- The rows of the groups, each on the page that its group has in the order of the groups. -/
def placed (groups : List (List Row)) : List Row :=
  (groups.zipIdx 1).flatMap fun b => b.1.map fun r => r.placedOn b.2

variable {budget : Nat} {groups : List (List Row)} {last : List Row} {row : Row}

theorem rowBytes_concat (rows : List Row) (row : Row) :
    rowBytes (rows ++ [row]) = rowBytes rows + row.byteSize := by
  rw [rowBytes_append]
  rfl

theorem place_nil (budget : Nat) (row : Row) : place budget [] row = [[row]] := rfl

theorem place_fits (h : rowBytes last + row.byteSize ≤ budget) :
    place budget (groups ++ [last]) row = groups ++ [last ++ [row]] := by
  simp [place, h]

theorem place_full (h : budget < rowBytes last + row.byteSize) :
    place budget (groups ++ [last]) row = groups ++ [last] ++ [[row]] := by
  simp [place, Nat.not_le.2 h]

/-- There is no group yet, the row fits into the last one, or it does not. -/
theorem place_cases (budget : Nat) (groups : List (List Row)) (row : Row) :
    groups = [] ∨
      (∃ front last, groups = front ++ [last] ∧ rowBytes last + row.byteSize ≤ budget) ∨
      ∃ front last, groups = front ++ [last] ∧ budget < rowBytes last + row.byteSize := by
  rcases List.eq_nil_or_concat' groups with rfl | ⟨front, last, rfl⟩
  · exact .inl rfl
  · rcases Nat.lt_or_ge budget (rowBytes last + row.byteSize) with hfull | hfits
    · exact .inr (.inr ⟨front, last, rfl, hfull⟩)
    · exact .inr (.inl ⟨front, last, rfl, hfits⟩)

theorem flatten_place (budget : Nat) (groups : List (List Row)) (row : Row) :
    (place budget groups row).flatten = groups.flatten ++ [row] := by
  rcases place_cases budget groups row with rfl | ⟨front, last, rfl, hfits⟩ | ⟨front, last, rfl, hfull⟩
  · rfl
  · simp [place_fits hfits]
  · simp [place_full hfull]

theorem flatten_foldl_place (budget : Nat) (rows : List Row) (groups : List (List Row)) :
    (rows.foldl (place budget) groups).flatten = groups.flatten ++ rows := by
  induction rows generalizing groups with
  | nil => simp
  | cons row rows ih => rw [List.foldl_cons, ih, flatten_place, List.append_assoc]; rfl

theorem placed_concat (groups : List (List Row)) (last : List Row) :
    placed (groups ++ [last]) = placed groups ++ last.map fun r => r.placedOn (groups.length + 1) := by
  simp [placed, List.zipIdx_append, Nat.add_comm]

/-- A new row comes behind all others, on the last page. -/
theorem placed_place (budget : Nat) (groups : List (List Row)) (row : Row) :
    placed (place budget groups row) =
      placed groups ++ [row.placedOn (place budget groups row).length] := by
  rcases place_cases budget groups row with rfl | ⟨front, last, rfl, hfits⟩ | ⟨front, last, rfl, hfull⟩
  · rfl
  · simp [place_fits hfits, placed_concat]
  · rw [place_full hfull, placed_concat]
    simp

/-- The rows on a page are those of its group. -/
theorem filter_placed (groups : List (List Row)) (n : Nat) :
    (placed groups).filter (fun r => r.position = n + 1) =
      ((groups[n]?).getD []).map fun r => r.placedOn (n + 1) := by
  induction groups using List.reverseRecOn with
  | nil => rfl
  | append_singleton groups last ih =>
    rw [placed_concat, List.filter_append, ih]
    by_cases hn : n = groups.length
    · subst hn
      simp
    · have hnone : (last.map fun r => r.placedOn (groups.length + 1)).filter
          (fun r => r.position = n + 1) = [] := by
        simp [List.filter_eq_nil_iff, Ne.symm hn]
      rw [hnone, List.append_nil]
      rcases Nat.lt_or_gt_of_ne hn with hlt | hgt
      · rw [List.getElem?_append_left hlt]
      · rw [List.getElem?_eq_none (by omega), List.getElem?_eq_none (by simp; omega)]

theorem rowBytes_map_placedOn (rows : List Row) (n : Nat) :
    rowBytes (rows.map fun r => r.placedOn n) = rowBytes rows := by
  simp [rowBytes, List.foldr_map]

theorem map_keyAt_placed (primary : Nat) (groups : List (List Row)) :
    (placed groups).map (fun r => r.keyAt primary) =
      groups.flatten.map fun r => r.keyAt primary := by
  induction groups using List.reverseRecOn with
  | nil => rfl
  | append_singleton groups last ih => simp [placed_concat, ih, Function.comp_def]

theorem NextFit.place (h : NextFit budget groups) (row : Row) :
    NextFit budget (place budget groups row) := by
  rcases place_cases budget groups row with rfl | ⟨front, last, rfl, hfits⟩ | ⟨front, last, rfl, hfull⟩
  · exact ⟨by simp [place_nil], by simp [place_nil], by simp [place_nil]⟩
  · rw [place_fits hfits]
    obtain ⟨hfront, -, hboundary⟩ := List.isChain_append.1 h.full
    refine ⟨fun hmem => h.nonempty ?_, fun group hgroup => ?_,
      List.isChain_append.2 ⟨hfront, .singleton _, fun group hgroup next hnext first hfirst => ?_⟩⟩
    · simp only [List.mem_append, List.mem_singleton, List.nil_eq, List.append_eq_nil_iff,
        List.cons_ne_nil, and_false, or_false] at hmem
      exact List.mem_append_left _ hmem
    · rcases List.mem_append.1 hgroup with hgroup | hgroup
      · exact h.within group (by simp [hgroup])
      · obtain rfl := List.mem_singleton.1 hgroup
        exact .inl (rowBytes_concat last row ▸ hfits)
    · -- The last group has a row already, so its first row is the one it had.
      obtain rfl : last ++ [row] = next := by simpa using hnext
      cases last with
      | nil => exact absurd (by simp) h.nonempty
      | cons head rest => exact hboundary group hgroup _ rfl first hfirst
  · rw [place_full hfull]
    refine ⟨by simpa using h.nonempty, fun group hgroup => ?_,
      List.isChain_append.2 ⟨h.full, .singleton _, fun group hgroup next hnext first hfirst => ?_⟩⟩
    · rcases List.mem_append.1 hgroup with hgroup | hgroup
      · exact h.within group hgroup
      · obtain rfl := List.mem_singleton.1 hgroup
        exact .inr rfl
    · obtain rfl : last = group := by simpa using hgroup
      obtain rfl : [row] = next := by simpa using hnext
      obtain rfl : row = first := by simpa using hfirst
      exact hfull

theorem nextFit_nextFit (budget : Nat) (rows : List Row) : NextFit budget (nextFit budget rows) := by
  have hfold (groups : List (List Row)) (h : NextFit budget groups) :
      NextFit budget (rows.foldl (place budget) groups) := by
    induction rows generalizing groups with
    | nil => exact h
    | cons row rows ih => exact ih _ (h.place row)
  exact hfold [] ⟨by simp, by simp, .nil⟩

/-! ## Rows that are added -/

/-- Whether a row has a key, and one that none of the given rows has. -/
def fresh (primary : Nat) (kept : List Row) (row : Row) : Bool :=
  match row.entries[primary]? with
  | none => false
  | some key => !kept.any fun other => (other.keyAt primary).same key

/-- Adds a row to those that are kept, unless its key is there. -/
def keep (primary : Nat) (kept : List Row) (row : Row) : List Row :=
  if fresh primary kept row then kept ++ [row] else kept

/-- The rows that are left when those without a key and those whose key was there before are left
out. -/
def freshRows (primary : Nat) (rows : List Row) : List Row := rows.foldl (keep primary) []

namespace Shelf

/-- The calls that add lists of entries, each with or without a pin. -/
def insertions (offered : List (List Entry × Bool)) : List StoreCall :=
  offered.map fun o => .insert o.1 o.2

/-- The rows that are offered. -/
def offers (offered : List (List Entry × Bool)) : List Row :=
  offered.map fun o => { entries := o.1 }

/-- The rows of the calls that succeed. -/
def accepted (primary : Nat) : List (List Entry × Bool) → Shelf → List Row
  | [], _ => []
  | (entries, pin) :: rest, sh =>
    match (insertRow entries primary pin).run sh with
    | (.ok _, sh') => { entries := entries } :: accepted primary rest sh'
    | (.error _, sh') => accepted primary rest sh'

/-- The map that has rows under their keys. -/
def gather (primary : Nat) (rows : List Row) : SortedMap Entry Row :=
  rows.foldl (fun m r => m.insert (r.keyAt primary) r) ∅

variable {t : ColumnType} {primary : Nat} {sh : Shelf}

/-- The rows of a shelf are those of the groups, and the page of the last group is in memory. -/
structure Arranged (t : ColumnType) (primary budget : Nat) (groups : List (List Row)) (sh : Shelf) :
    Prop where
  sound : Sound t primary 0 sh
  budget : sh.store.budget = budget
  lastPage : sh.store.lastPage = groups.length
  opened : groups ≠ [] → (sh.store.pages.get? sh.store.lastPage).isSome
  rows : sh.rows primary = gather primary (placed groups)
  values : (sh.rows primary).values.Perm (placed groups)

/-- A row is found under its own key. -/
theorem Sound.get?_keyAt (h : Sound t primary 0 sh) {row : Row}
    (hrow : row ∈ (sh.rows primary).values) :
    row.Keyed t primary ∧ (sh.rows primary).get? (row.keyAt primary) = some row := by
  have hP := Entry.orderedOn_fits t
  have hascending := h.agree.ascending_contentsOf
  obtain ⟨b, hb, rfl⟩ := List.mem_map.1 hrow
  have hfits := hascending.holds b hb
  have hget := SortedMap.get?_of_mem hP hascending hb
  obtain ⟨hkeyed, hsame, -⟩ := h.agree.keyed_of_get?_contentsOf hfits hget
  refine ⟨hkeyed, hget ▸ ?_⟩
  exact SortedMap.get?_congr hP hascending hkeyed.fits hfits (Entry.same_iff.1 hsame)

/-- A key is there if one of the rows has it. -/
theorem Sound.contains_rows_iff (h : Sound t primary 0 sh) {key : Entry} (hkey : key.fits t) :
    (sh.rows primary).contains key = true ↔
      ∃ r ∈ (sh.rows primary).values, (r.keyAt primary).same key = true := by
  have hP := Entry.orderedOn_fits t
  have hascending := h.agree.ascending_contentsOf
  rw [SortedMap.contains_eq_isSome_get?, Option.isSome_iff_exists]
  constructor
  · rintro ⟨row, hrow⟩
    obtain ⟨k, hk⟩ := SortedMap.exists_mem_of_get? hrow
    exact ⟨row, List.mem_map_of_mem hk, (h.agree.keyed_of_get?_contentsOf hkey hrow).2.1⟩
  · rintro ⟨row, hrow, hsame⟩
    obtain ⟨hkeyed, hget⟩ := h.get?_keyAt hrow
    refine ⟨row, hget ▸ ?_⟩
    exact (SortedMap.get?_congr hP hascending hkeyed.fits hkey (Entry.same_iff.1 hsame)).symm

namespace Arranged

theorem new (t : ColumnType) (primary : Nat) (config : Config) (database table : String) {disk : Disk}
    (hdisk : disk.directory.Ordered) :
    Arranged t primary config.budget [] ⟨config.newStore database table, disk⟩ where
  sound := sound_new t primary config database table hdisk
  budget := rfl
  lastPage := rfl
  opened h := absurd rfl h
  rows := rfl
  values := .refl _

theorem pageBytes (h : Arranged t primary budget groups sh) (n : Nat) :
    sh.pageBytes primary (n + 1) = rowBytes ((groups[n]?).getD []) := by
  rw [Shelf.pageBytes, rowBytes_perm (h.values.filter _), filter_placed, rowBytes_map_placedOn]

/-- A key is refused if one of the rows that are there has it. -/
theorem contains_rows (h : Arranged t primary budget groups sh) {key : Entry} (hkey : key.fits t) :
    (sh.rows primary).contains key =
      groups.flatten.any fun r => (r.keyAt primary).same key := by
  have hkeys (rows : List Row) : (∃ r ∈ rows, (r.keyAt primary).same key = true) ↔
      ∃ k ∈ rows.map (fun r => r.keyAt primary), k.same key = true := by simp
  rw [Bool.eq_iff_iff, h.sound.contains_rows_iff hkey, List.any_eq_true]
  simp only [h.values.mem_iff]
  rw [hkeys, map_keyAt_placed, ← hkeys]

/-- The page of the last group is in memory and counts the bytes of the group. -/
theorem exists_page (h : Arranged t primary budget (groups ++ [last]) sh) :
    ∃ p, sh.store.pages.get? sh.store.lastPage = some p ∧ p.size = rowBytes last := by
  obtain ⟨p, hp⟩ := Option.isSome_iff_exists.1 (h.opened (by simp))
  refine ⟨p, hp, ?_⟩
  rw [h.sound.size_eq hp, h.lastPage, List.length_append, List.length_singleton, h.pageBytes]
  simp

/-- A row goes to the page that next fit has for it. -/
theorem pageFor (h : Arranged t primary budget groups sh) (row : Row) :
    ∃ sh₁, (Shelf.pageFor row.byteSize).run sh = (.ok (place budget groups row).length, sh₁) ∧
      Sound t primary (place budget groups row).length sh₁ ∧ Frame sh sh₁ ∧
      sh₁.rows primary = sh.rows primary ∧
      sh₁.store.lastPage = (place budget groups row).length ∧
      (sh₁.store.pages.get? (place budget groups row).length).isSome := by
  have hadd (hlength : (place budget groups row).length = groups.length + 1) :
      ∃ sh₁, Shelf.addPage.run sh = (.ok (place budget groups row).length, sh₁) ∧
        Sound t primary (place budget groups row).length sh₁ ∧ Frame sh sh₁ ∧
        sh₁.rows primary = sh.rows primary ∧
        sh₁.store.lastPage = (place budget groups row).length ∧
        (sh₁.store.pages.get? (place budget groups row).length).isSome := by
    obtain ⟨n, sh₁, hrun, h₁, hframe, hrows, hn, hlast, hpage⟩ := h.sound.addPage
    obtain rfl : n = (place budget groups row).length := by rw [hlength, ← h.lastPage, hn, hlast]
    exact ⟨sh₁, hrun, h₁, hframe, hrows, hn.symm, hpage⟩
  unfold Shelf.pageFor
  rw [Action.run_bind_ok (run_getStore sh)]
  rcases place_cases budget groups row with rfl | ⟨front, last, rfl, hfits⟩ | ⟨front, last, rfl, hfull⟩
  · have hnone : sh.store.pages.get? sh.store.lastPage = none := by
      cases hp : sh.store.pages.get? sh.store.lastPage with
      | none => rfl
      | some p => exact absurd h.lastPage (Nat.pos_iff_ne_zero.1 (h.sound.agree.within hp).1)
    simp only [hnone]
    exact hadd rfl
  · obtain ⟨p, hp, hsize⟩ := h.exists_page
    have hlength : (place budget (front ++ [last]) row).length = sh.store.lastPage := by
      simp [place_fits hfits, h.lastPage]
    have hfit : p.fits row.byteSize sh.store.budget = true := by
      simpa [Page.fits, hsize, h.budget] using hfits
    simp only [hp, hfit, if_true]
    rw [hlength]
    exact ⟨sh, rfl, h.sound.weaken _, .refl sh, rfl, rfl, by rw [hp]; rfl⟩
  · obtain ⟨p, hp, hsize⟩ := h.exists_page
    have hfit : p.fits row.byteSize sh.store.budget = false := by
      simpa [Page.fits, hsize, h.budget] using hfull
    simp only [hp, hfit, Bool.false_eq_true, if_false]
    exact hadd (by simp [place_full hfull])

/-- A row with a new key is added where next fit puts it, and any other row is refused and leaves
nothing behind. -/
theorem insertRow (h : Arranged t primary budget groups sh) {entries : List Entry}
    (hfits : ∀ key, entries[primary]? = some key → key.fits t) (pin : Bool) :
    (∃ sh', fresh primary groups.flatten { entries := entries } = true ∧
      (Shelf.insertRow entries primary pin).run sh = (.ok (), sh') ∧
      Arranged t primary budget (place budget groups { entries := entries }) sh') ∨
    ∃ e, fresh primary groups.flatten { entries := entries } = false ∧
      (Shelf.insertRow entries primary pin).run sh = (.error e, sh) := by
  cases hkey : entries[primary]? with
  | none => exact .inr ⟨_, by simp [fresh, hkey], insertRow_noKey hkey pin sh⟩
  | some key =>
    have hcontains := h.contains_rows (hfits key hkey)
    cases hin : (sh.rows primary).contains key with
    | true =>
      rw [hin] at hcontains
      exact .inr ⟨_, by simp [fresh, hkey, ← hcontains], h.sound.insertRow_duplicate hkey hin pin⟩
    | false =>
      rw [hin] at hcontains
      let row : Row := { entries := entries }
      obtain ⟨sh₁, hrun, h₁, hframe, hrows, hlast, hpage⟩ := h.pageFor row
      obtain ⟨p, hp⟩ := Option.isSome_iff_exists.1 hpage
      obtain ⟨sh₂, hrun₂, h₂, hframe₂, hrows₂, hlast₂, hpage₂, -⟩ :=
        h.sound.insertRow_on hkey (hfits key hkey) hin hrun h₁ hrows hp pin
      refine .inl ⟨sh₂, by simp [fresh, hkey, ← hcontains], hrun₂, h₂, ?_, hlast₂.trans hlast, ?_, ?_,
        ?_⟩
      · rw [hframe₂.budget, hframe.budget, h.budget]
      · rw [hlast₂, hlast]
        exact fun _ => hpage₂
      · have hkeyAt : (row.placedOn (place budget groups row).length).keyAt primary = key := by
          simp [Row.keyAt, row, hkey]
        rw [hrows₂, h.rows, placed_place, gather, gather, List.foldl_append, List.foldl_cons, hkeyAt]
        rfl
      · have hperm := (SortedMap.toList_insert_perm (SortedMap.contains_eq_false_iff.1 hin)
          (⟨entries, (place budget groups row).length⟩ : Row)).map Prod.snd
        rw [hrows₂, placed_place]
        refine hperm.trans (.trans ?_ (List.perm_append_singleton _ _).symm)
        exact h.values.cons _

/-- Next fit goes on through any number of rows. -/
theorem after (h : Arranged t primary budget groups sh) {offered : List (List Entry × Bool)}
    (hfits : ∀ o ∈ offered, ∀ key, o.1[primary]? = some key → key.fits t) :
    Arranged t primary budget ((accepted primary offered sh).foldl (place budget) groups)
        (Shelf.after primary (insertions offered) sh) ∧
      groups.flatten ++ accepted primary offered sh =
        (offers offered).foldl (keep primary) groups.flatten := by
  induction offered generalizing groups sh with
  | nil => exact ⟨h, List.append_nil _⟩
  | cons o offered ih =>
    obtain ⟨entries, pin⟩ := o
    have hfirst : ∀ key, entries[primary]? = some key → key.fits t := hfits (entries, pin) (by simp)
    have hrest : ∀ o ∈ offered, ∀ key, o.1[primary]? = some key → key.fits t :=
      fun o ho => hfits o (by simp [ho])
    have hafter : Shelf.after primary (insertions ((entries, pin) :: offered)) sh =
        Shelf.after primary (insertions offered)
          ((Shelf.call primary (.insert entries pin)).run sh).2 := rfl
    have hkeep : (offers ((entries, pin) :: offered)).foldl (keep primary) groups.flatten =
        (offers offered).foldl (keep primary) (keep primary groups.flatten { entries := entries }) := rfl
    rw [hafter, hkeep]
    rcases h.insertRow hfirst pin with ⟨sh', hfresh, hrun, h'⟩ | ⟨e, hstale, hrun⟩
    · obtain ⟨harranged, hkept⟩ := ih h' hrest
      rw [flatten_place, List.append_assoc] at hkept
      simp only [accepted, hrun, Shelf.call, Action.run_bind_ok hrun, keep, hfresh, if_true]
      exact ⟨harranged, hkept⟩
    · simp only [accepted, hrun, Shelf.call, Action.run_bind_error hrun, keep, hstale,
        Bool.false_eq_true, if_false]
      exact ih h hrest

end Arranged

/-- What rows that are offered to a new store come to: the rows that are added are those with a new
key, and they lie where next fit puts them. -/
theorem arranged_after (config : Config) (database table : String) {disk : Disk}
    (hdisk : disk.directory.Ordered) {offered : List (List Entry × Bool)}
    (hfits : ∀ o ∈ offered, ∀ key, o.1[primary]? = some key → key.fits t) :
    Arranged t primary config.budget (nextFit config.budget (freshRows primary (offers offered)))
        (after primary (insertions offered) ⟨config.newStore database table, disk⟩) ∧
      accepted primary offered ⟨config.newStore database table, disk⟩ =
        freshRows primary (offers offered) := by
  obtain ⟨harranged, hkept⟩ := (Arranged.new t primary config database table hdisk).after hfits
  rw [List.flatten_nil, List.nil_append] at hkept
  rw [hkept] at harranged
  exact ⟨harranged, hkept⟩

/-- However many pages a new store keeps in memory, whichever of its pages are pinned and whichever
writes are refused, rows that are added lie as next fit arranges them: the rows with a new key, in the
order in which they come, on pages that follow one another. -/
theorem nextFit_of_insertions (t : ColumnType) (primary : Nat) (config : Config)
    (database table : String) {disk : Disk} (hdisk : disk.directory.Ordered)
    {offered : List (List Entry × Bool)}
    (hfits : ∀ o ∈ offered, ∀ key, o.1[primary]? = some key → key.fits t) :
    let start : Shelf := ⟨config.newStore database table, disk⟩
    let sh := after primary (insertions offered) start
    let groups := nextFit config.budget (accepted primary offered start)
    accepted primary offered start = freshRows primary (offers offered) ∧
    groups.flatten = accepted primary offered start ∧ NextFit config.budget groups ∧
    sh.store.pageCount = groups.length ∧
    (sh.rows primary).values.Perm (placed groups) ∧
    (∀ row ∈ placed groups,
      ((Shelf.getRow (row.keyAt primary) primary).run sh).1 = .ok row) ∧
    (∀ n group, groups[n]? = some group →
      sh.pageBytes primary (n + 1) = rowBytes group ∧
        (sh.pageBytes primary (n + 1) ≤ config.budget ∨ group.length = 1) ∧
        ∀ p, sh.store.pages.get? (n + 1) = some p → p.size = rowBytes group) ∧
    ∀ (config' : Config) (database' table' : String) (disk' : Disk) (offered' : List (List Entry × Bool)),
      config'.budget = config.budget → disk'.directory.Ordered →
      offered'.map Prod.fst = offered.map Prod.fst →
      let sh' := after primary (insertions offered') ⟨config'.newStore database' table', disk'⟩
      sh'.rows primary = sh.rows primary ∧ sh'.store.pageCount = sh.store.pageCount := by
  intro start sh groups
  obtain ⟨h, hkept⟩ := arranged_after config database table hdisk hfits
  rw [← hkept] at h
  have hflatten : groups.flatten = accepted primary offered start :=
    flatten_foldl_place config.budget _ []
  refine ⟨hkept, hflatten, nextFit_nextFit _ _, h.lastPage, h.values, fun row hrow => ?_,
    fun n group hgroup => ?_, fun config' database' table' disk' offered' hbudget hdisk' hsame => ?_⟩
  · obtain ⟨-, hget⟩ := h.sound.get?_keyAt (h.values.mem_iff.2 hrow)
    obtain ⟨sh₁, hrun, -⟩ := h.sound.getRow hget
    rw [hrun]
  · have hbytes : sh.pageBytes primary (n + 1) = rowBytes group := by
      rw [h.pageBytes, hgroup]
      rfl
    refine ⟨hbytes, ?_, fun p hp => (h.sound.size_eq hp).trans hbytes⟩
    rw [hbytes]
    exact (nextFit_nextFit _ _).within group (List.mem_of_getElem? hgroup)
  · have hentries : offers offered' = offers offered := by
      have hmap := congrArg (List.map fun entries => ({ entries := entries } : Row)) hsame
      rwa [List.map_map, List.map_map] at hmap
    have hfits' : ∀ o ∈ offered', ∀ key, o.1[primary]? = some key → key.fits t := by
      intro o ho
      have hmem : o.1 ∈ offered.map Prod.fst := hsame ▸ List.mem_map_of_mem ho
      obtain ⟨o', ho', heq⟩ := List.mem_map.1 hmem
      exact heq ▸ hfits o' ho'
    obtain ⟨h', -⟩ := arranged_after config' database' table' hdisk' hfits'
    rw [hbudget, hentries, ← hkept] at h'
    exact ⟨h'.rows.trans h.rows.symm, h'.lastPage.trans h.lastPage.symm⟩

/-- Rows for pages of four bytes: the first fills a page and pins it, the third has its key, and the
last is longer than a page. -/
def someRows : List (List Entry × Bool) :=
  [([.int 1, .text "a"], true), ([.int 2], false), ([.int 1], false), ([.int 33], false),
    ([.int 4], false), ([.int 5, .text "long"], false)]

theorem nextFit_of_someRows :
    (∀ o ∈ someRows, ∀ key, o.1[0]? = some key → key.fits .int) ∧
      let start : Shelf := ⟨({ budget := 4, cap := 1 } : Config).newStore "shop" "items",
        { outages := [true, false, true] }⟩
      let sh := after 0 (insertions someRows) start
      sh.store.pageCount = 3 ∧ ((Shelf.getRow (.int 33) 0).run sh).1 = .ok ⟨[.int 33], 2⟩ ∧
        sh.pageBytes 0 3 = 7 := by
  have hfits : ∀ o ∈ someRows, ∀ key, o.1[0]? = some key → key.fits .int := by
    simp [someRows, Entry.fits, Entry.type?]
  have hgroups : nextFit 4 (accepted 0 someRows
      ⟨({ budget := 4, cap := 1 } : Config).newStore "shop" "items",
        { outages := [true, false, true] }⟩) =
      [[⟨[.int 1, .text "a"], 0⟩], [⟨[.int 2], 0⟩, ⟨[.int 33], 0⟩, ⟨[.int 4], 0⟩],
        [⟨[.int 5, .text "long"], 0⟩]] := by decide +kernel
  have hlaid := @nextFit_of_insertions .int 0 { budget := 4, cap := 1 } "shop" "items"
    { outages := [true, false, true] } Directory.ordered_empty _ hfits
  simp only [hgroups] at hlaid
  obtain ⟨-, -, -, hcount, -, hget, hpages, -⟩ := hlaid
  refine ⟨hfits, hcount, hget ⟨[.int 33], 2⟩ (by decide), ?_⟩
  rw [(hpages 2 _ rfl).1]
  decide +kernel

end Shelf

end PageDb
