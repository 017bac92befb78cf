import PageDb.Proofs.Store.Steps

/-!
Inserting, deleting, updating and renaming a row keep the views of a store in agreement.
-/

namespace PageDb

namespace Page

/-- A key that is listed splits the list at its first place, which is where it is removed or
replaced. -/
theorem exists_split_of_any {key : Entry} {keys : List Entry}
    (h : keys.any (fun k => k.same key) = true) :
    ∃ front k back, keys = front ++ [k] ++ back ∧ k.same key = true ∧
      removeFirst key keys = some (front ++ back) ∧
      ∀ new, replaceFirst key new keys = some (front ++ [new] ++ back) := by
  induction keys with
  | nil => simp at h
  | cons j rest ih =>
    cases hj : j.same key with
    | true => exact ⟨[], j, rest, by simp, hj, by simp [removeFirst, hj], by simp [replaceFirst, hj]⟩
    | false =>
      have hrest : rest.any (fun k => k.same key) = true := by simpa [hj] using h
      obtain ⟨front, k, back, rfl, hk, hremove, hreplace⟩ := ih hrest
      refine ⟨j :: front, k, back, by simp, hk, ?_, fun new => ?_⟩
      · rw [removeFirst, hj, hremove]; rfl
      · rw [replaceFirst, hj, hreplace]; rfl

end Page

theorem byteSize_le_rowBytes {row : Row} {rows : List Row} (h : row ∈ rows) :
    row.byteSize ≤ rowBytes rows := by
  induction rows with
  | nil => simp at h
  | cons r rest ih =>
    rcases List.mem_cons.1 h with rfl | h
    · simp [rowBytes]
    · have := ih h
      simp only [rowBytes, List.foldr_cons] at this ⊢
      omega

@[simp] theorem rowBytes_singleton (row : Row) : rowBytes [row] = row.byteSize := by
  simp [rowBytes]

variable {t : ColumnType} {primary exempt exempt' last n : Nat} {index : Index Slot}
  {page page' : Nat → Option Page} {file : Nat → Option (List Row)} {p : Page}

/-- A new row is added to a page in memory. -/
theorem Agree.add (h : Agree t primary exempt last index page file) (hp : page n = some p)
    {row : Row} (hkeyed : row.Keyed t primary) (hposition : row.position = n)
    (hnew : index.get? (row.keyAt primary) = none)
    (hexempt : ∀ m, 0 < m → m ≠ n → m ≠ exempt' → m ≠ exempt)
    (page' : Nat → Option Page)
    (hpage : ∀ m, page' m =
      if m = n then some (p.add (row.keyAt primary) row.byteSize).touched else page m) :
    Agree t primary exempt' last (index.insert (row.keyAt primary) (.resident row)) page' file := by
  have hP := Entry.orderedOn_fits t
  have hfits := hkeyed.fits
  have hget {k : Entry} (hk : k.fits t) :=
    SortedMap.get?_insert hP h.ascending hfits hk (Slot.resident row)
  have hself : (index.insert (row.keyAt primary) (.resident row)).get? (row.keyAt primary) =
      some (.resident row) := by rw [hget hfits, if_pos (hP.refl hfits)]
  refine h.splice hp hpage p.keys [] [row.keyAt primary] [] (by simp)
    (by simp [Page.touched, Page.add]) rfl rfl ?_ ?_ hexempt
  · rw [residentRows_singleton hself]
    simp [residentRows, rowBytes, Page.touched, Page.add]
  · constructor
    case ascending => exact h.ascending.insert hP hfits _
    case distinct => simp
    case fresh =>
      intro j hj
      obtain rfl : j = row.keyAt primary := by simpa using hj
      exact ⟨hfits, row, hself, hposition, hkeyed, Entry.same_refl hfits⟩
    case free => simp [hnew]
    case gone => simp
    case kept =>
      rintro k hk - hnone
      have hne : (row.keyAt primary).same k = false := hnone _ (by simp)
      rw [Entry.same_comm hfits hk, Entry.same_eq_false_iff] at hne
      rw [hget hk, if_neg hne]

/-- The place of a key of a page in the list of the page, and the bytes of its row. -/
theorem Agree.exists_split (h : Agree t primary exempt last index page file) (hp : page n = some p)
    {key : Entry} (hkey : key.fits t) {row : Row} (hrow : index.get? key = some (.resident row))
    (hposition : row.position = n) :
    ∃ front k back, p.keys = front ++ [k] ++ back ∧ k.fits t ∧ k.same key = true ∧
      index.get? k = some (.resident row) ∧ row.byteSize ≤ p.size ∧
      Page.removeFirst key p.keys = some (front ++ back) ∧
      ∀ new, Page.replaceFirst key new p.keys = some (front ++ [new] ++ back) := by
  obtain ⟨front, k, back, hkeys, hsame, hremove, hreplace⟩ :=
    Page.exists_split_of_any ((h.lists_iff hp hkey).2 ⟨row, hrow, hposition⟩)
  have hfits := (h.inMemory hp).fits (k := k) (by simp [hkeys])
  have hk : index.get? k = some (.resident row) := by
    rw [← hrow]
    exact SortedMap.get?_congr (Entry.orderedOn_fits t) h.ascending hfits hkey
      (Entry.same_iff.1 hsame)
  refine ⟨front, k, back, hkeys, hfits, hsame, hk, ?_, hremove, hreplace⟩
  rw [(h.inMemory hp).size]
  exact byteSize_le_rowBytes (Store.mem_pageRows.2 ⟨k, by simp [hkeys], hk⟩)

/-- A row is removed from its page. -/
theorem Agree.remove (h : Agree t primary exempt last index page file) (hp : page n = some p)
    {key : Entry} (hkey : key.fits t) {row : Row} (hrow : index.get? key = some (.resident row))
    (hposition : row.position = n)
    (page' : Nat → Option Page)
    (hpage : ∀ m, page' m = if m = n then some (p.remove key row.byteSize).touched else page m) :
    Agree t primary exempt last (index.erase key) page' file := by
  have hP := Entry.orderedOn_fits t
  obtain ⟨front, k, back, hkeys, hfits, hsame, hk, hle, hremove, -⟩ :=
    h.exists_split hp hkey hrow hposition
  have hremoved : p.remove key row.byteSize =
      { p with keys := front ++ back, size := p.size - row.byteSize } := by
    simp [Page.remove, hremove]
  rw [hremoved] at hpage
  refine h.splice hp hpage front [k] [] back hkeys (by simp [Page.touched]) rfl rfl ?_ ?_
    (fun _ _ _ he => he)
  · rw [residentRows_singleton hk]
    simp only [Page.touched, residentRows, rowBytes_singleton, List.filterMap_nil]
    simp only [rowBytes, List.foldr_nil]
    omega
  · constructor
    case ascending => exact h.ascending.erase key
    case distinct => simp
    case fresh => simp
    case free => simp
    case gone =>
      rintro j hj ⟨o, ho, hoj⟩ -
      obtain rfl : o = k := by simpa using ho
      have heq : j.same key = true := by
        rw [← Entry.same_congr_left hfits hj hkey hoj, hsame]
      rw [SortedMap.get?_erase hP h.ascending hkey hj, if_pos (Entry.same_iff.1 heq)]
    case kept =>
      rintro j hj hnone -
      have hne : j.same key = false := by
        rw [← Entry.same_congr_right hj hfits hkey hsame, Entry.same_comm hj hfits]
        exact hnone k (by simp)
      rw [SortedMap.get?_erase hP h.ascending hkey hj, if_neg (Entry.same_eq_false_iff.1 hne)]

/-- A row changes and keeps its key. -/
theorem Agree.replace (h : Agree t primary exempt last index page file) (hp : page n = some p)
    {key : Entry} (hkey : key.fits t) {row row' : Row}
    (hrow : index.get? key = some (.resident row)) (hposition : row.position = n)
    (hkeyed : row'.Keyed t primary) (hposition' : row'.position = n)
    (hsame' : (row'.keyAt primary).same key = true)
    (page' : Nat → Option Page)
    (hpage : ∀ m, page' m =
      if m = n then some (p.resize row.byteSize row'.byteSize).touched else page m) :
    Agree t primary exempt last (index.modify key fun _ => .resident row') page' file := by
  have hP := Entry.orderedOn_fits t
  obtain ⟨front, k, back, hkeys, hfits, hsame, hk, hle, -⟩ := h.exists_split hp hkey hrow hposition
  have hget {j : Entry} (hj : j.fits t) :=
    SortedMap.get?_modify hP h.ascending hkey hj fun _ => Slot.resident row'
  have hself : (index.modify key fun _ => .resident row').get? k = some (.resident row') := by
    rw [hget hfits, if_pos (Entry.same_iff.1 hsame), hk, Option.map_some]
  refine h.splice hp hpage front [k] [k] back hkeys
    (by simp [Page.touched, Page.resize, hkeys]) rfl rfl ?_ ?_ (fun _ _ _ he => he)
  · rw [residentRows_singleton hk, residentRows_singleton hself]
    simp only [Page.touched, Page.resize, rowBytes_singleton]
    omega
  · constructor
    case ascending => exact h.ascending.modify key _
    case distinct => simp
    case fresh =>
      intro j hj
      obtain rfl : j = k := by simpa using hj
      refine ⟨hfits, row', hself, hposition', hkeyed, ?_⟩
      rw [Entry.same_congr_right hkeyed.fits hfits hkey hsame, hsame']
    case free =>
      intro j hj
      obtain rfl : j = k := by simpa using hj
      exact .inr ⟨j, by simp, Entry.same_refl hfits⟩
    case gone =>
      rintro j hj ⟨o, ho, hoj⟩ hnone
      rw [hnone o ho] at hoj
      cases hoj
    case kept =>
      rintro j hj hnone -
      have hne : j.same key = false := by
        rw [← Entry.same_congr_right hj hfits hkey hsame, Entry.same_comm hj hfits]
        exact hnone k (by simp)
      rw [hget hj, if_neg (Entry.same_eq_false_iff.1 hne)]

/-- A row changes and moves to a new key. -/
theorem Agree.rename (h : Agree t primary exempt last index page file) (hp : page n = some p)
    {key : Entry} (hkey : key.fits t) {row row' : Row}
    (hrow : index.get? key = some (.resident row)) (hposition : row.position = n)
    (hkeyed : row'.Keyed t primary) (hposition' : row'.position = n)
    (hnew : index.get? (row'.keyAt primary) = none)
    (page' : Nat → Option Page)
    (hpage : ∀ m, page' m = if m = n then
      some (p.rename key (row'.keyAt primary) row.byteSize row'.byteSize).touched else page m) :
    Agree t primary exempt last
      (((index.modify key fun _ => .resident row').erase key).insert (row'.keyAt primary)
        (.resident row')) page' file := by
  have hP := Entry.orderedOn_fits t
  have hfits' := hkeyed.fits
  obtain ⟨front, k, back, hkeys, hfits, hsame, hk, hle, -, hreplace⟩ :=
    h.exists_split hp hkey hrow hposition
  rw [SortedMap.erase_modify]
  have hget {j : Entry} (hj : j.fits t) :=
    SortedMap.get?_insert_erase hP h.ascending hkey hfits' hj (Slot.resident row')
  have hself := hget hfits'
  rw [if_pos (hP.refl hfits')] at hself
  have hrenamed : p.rename key (row'.keyAt primary) row.byteSize row'.byteSize =
      Page.resize { p with keys := front ++ [row'.keyAt primary] ++ back } row.byteSize
        row'.byteSize := by
    simp [Page.rename, hreplace]
  rw [hrenamed] at hpage
  refine h.splice hp hpage front [k] [row'.keyAt primary] back hkeys
    (by simp [Page.touched, Page.resize]) rfl rfl ?_ ?_ (fun _ _ _ he => he)
  · rw [residentRows_singleton hk, residentRows_singleton hself]
    simp only [Page.touched, Page.resize, rowBytes_singleton]
    omega
  · have hother {j : Entry} (hj : j.fits t) (hne : (row'.keyAt primary).same j = false) :
        ¬ compare j (row'.keyAt primary) = .eq := by
      rw [Entry.same_comm hfits' hj] at hne
      exact Entry.same_eq_false_iff.1 hne
    constructor
    case ascending => exact (h.ascending.erase key).insert hP hfits' _
    case distinct => simp
    case fresh =>
      intro j hj
      obtain rfl : j = row'.keyAt primary := by simpa using hj
      exact ⟨hfits', row', hself, hposition', hkeyed, Entry.same_refl hfits'⟩
    case free => simp [hnew]
    case gone =>
      rintro j hj ⟨o, ho, hoj⟩ hnone
      obtain rfl : o = k := by simpa using ho
      have heq : j.same key = true := by
        rw [← Entry.same_congr_left hfits hj hkey hoj, hsame]
      rw [hget hj, if_neg (hother hj (hnone _ (by simp))), if_pos (Entry.same_iff.1 heq)]
    case kept =>
      intro j hj hnone hnone'
      have hne : j.same key = false := by
        rw [← Entry.same_congr_right hj hfits hkey hsame, Entry.same_comm hj hfits]
        exact hnone k (by simp)
      rw [hget hj, if_neg (hother hj (hnone' _ (by simp))),
        if_neg (Entry.same_eq_false_iff.1 hne)]

end PageDb
