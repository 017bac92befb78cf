import PageDb.Proofs.Disk
import PageDb.Proofs.PageImage
import PageDb.Proofs.Store.Contents
import PageDb.Proofs.Store.Visits

/-!
Sound shelves: stores that agree with their page files.

`Shelf.rows` is what a shelf holds, wherever the rows lie.  `Shelf.Frame` is what no operation on
rows changes, and `Shelf.Moves` is what an operation does that only moves pages.
-/

namespace PageDb

namespace Shelf

/-- The slots of all keys. -/
def index (sh : Shelf) : Index Slot := sh.store.index.getD ∅

/-- The contents of the file of a page. -/
def image? (sh : Shelf) (n : Nat) : Option Bytes :=
  sh.disk.directory.read? (sh.store.fileName n)

/-- The rows in the file of a page, if they can be read.  A file that is not there holds no row. -/
def stored? (sh : Shelf) (n : Nat) : Option (List Row) :=
  match sh.image? n with
  | none => some []
  | some image =>
    match PageImage.decode image with
    | .error _ => none
    | .ok rows => some (rows.map fun r => r.placedOn n)

/-- The rows of all keys, in memory or not. -/
def rows (primary : Nat) (sh : Shelf) : SortedMap Entry Row :=
  contentsOf primary sh.index sh.stored?

theorem stored?_eq_some_iff {sh : Shelf} {n : Nat} {rows : List Row} :
    sh.stored? n = some rows ↔ sh.image? n = none ∧ rows = [] ∨
      ∃ image decoded, sh.image? n = some image ∧ PageImage.decode image = .ok decoded ∧
        rows = decoded.map fun r => r.placedOn n := by
  unfold stored?
  cases sh.image? n with
  | none => simp [eq_comm]
  | some image => cases h : PageImage.decode image <;> simp [h, eq_comm]

theorem image?_congr {sh sh' : Shelf} {n : Nat}
    (hname : sh'.store.fileName n = sh.store.fileName n)
    (hdirectory : sh'.disk.directory = sh.disk.directory) : sh'.image? n = sh.image? n := by
  rw [image?, hname, hdirectory, image?]

theorem stored?_congr {sh sh' : Shelf} {n : Nat} (h : sh'.image? n = sh.image? n) :
    sh'.stored? n = sh.stored? n := by
  rw [stored?, h, stored?]

/-- The views of a shelf agree; only the page `exempt` may differ from its file without being
marked. -/
structure Sound (t : ColumnType) (primary exempt : Nat) (sh : Shelf) : Prop where
  live : sh.store.index = some sh.index
  pages : sh.store.pages.Ascending fun _ => True
  agree : Agree t primary exempt sh.store.lastPage sh.index sh.store.pages.get? sh.stored?
  tracks : Tracks sh.store.pages sh.store.replacer
  ordered : sh.disk.directory.Ordered

/-- A sound shelf stays sound while the files of its pages read as before. -/
theorem Sound.withDisk {t : ColumnType} {primary exempt : Nat} {sh : Shelf}
    (h : Sound t primary exempt sh) {disk : Disk} (hordered : disk.directory.Ordered)
    (hread : ∀ n, disk.directory.read? (sh.store.fileName n) = sh.image? n) :
    Sound t primary exempt { sh with disk := disk } ∧
      rows primary { sh with disk := disk } = sh.rows primary := by
  have hstored : stored? { sh with disk := disk } = sh.stored? :=
    funext fun n => stored?_congr (hread n)
  refine ⟨⟨h.live, h.pages, ?_, h.tracks, hordered⟩, ?_⟩
  · rw [hstored]
    exact h.agree
  · rw [rows, hstored]
    rfl

/-! ## What stays -/

/-- The files that writing pages of a store works on. -/
def Owns (s : Store) (f : String) : Prop :=
  ∃ n, 0 < n ∧ n ≤ s.lastPage ∧ Disk.Touched (s.fileName n) f

/-- A page that has a file. -/
def Filed (sh : Shelf) (n : Nat) : Prop := (sh.image? n).isSome

/-- A page that has a file or gets one before it leaves memory. -/
def Safe (sh : Shelf) (n : Nat) : Prop :=
  (∃ p, sh.store.pages.get? n = some p ∧ p.dirty = true) ∨ sh.Filed n

/-- What no operation on rows changes. -/
structure Frame (sh sh' : Shelf) : Prop where
  database : sh'.store.database = sh.store.database
  table : sh'.store.table = sh.store.table
  budget : sh'.store.budget = sh.store.budget
  cap : sh'.store.cap = sh.store.cap
  last : sh.store.lastPage ≤ sh'.store.lastPage
  disk : Disk.Changes (Owns sh'.store) sh.disk sh'.disk
  safe : ∀ n, 0 < n → n ≤ sh.store.lastPage → sh.Safe n → sh'.Safe n

namespace Frame

variable {sh sh' sh'' : Shelf}

theorem fileName (h : Frame sh sh') (n : Nat) :
    sh'.store.fileName n = sh.store.fileName n := by
  simp only [Store.fileName, h.database, h.table]

theorem refl (sh : Shelf) : Frame sh sh :=
  ⟨rfl, rfl, rfl, rfl, Nat.le_refl _, .of_directory_eq rfl, fun _ _ _ hn => hn⟩

theorem owns (h : Frame sh sh') {f : String} (hf : Owns sh.store f) : Owns sh'.store f := by
  obtain ⟨n, hpos, hle, htouched⟩ := hf
  exact ⟨n, hpos, Nat.le_trans hle h.last, by rwa [h.fileName]⟩

theorem trans (h : Frame sh sh') (h' : Frame sh' sh'') : Frame sh sh'' where
  database := h'.database.trans h.database
  table := h'.table.trans h.table
  budget := h'.budget.trans h.budget
  cap := h'.cap.trans h.cap
  last := Nat.le_trans h.last h'.last
  disk := (h.disk.mono fun _ hf => h'.owns hf).trans h'.disk
  safe n hpos hle hn := h'.safe n hpos (Nat.le_trans hle h.last) (h.safe n hpos hle hn)

end Frame

/-- What an operation does that moves pages between memory and disk and changes no row. -/
structure Moves (primary : Nat) (sh sh' : Shelf) : Prop extends Frame sh sh' where
  lastPage : sh'.store.lastPage = sh.store.lastPage
  rows : sh'.rows primary = sh.rows primary

namespace Moves

variable {primary : Nat} {sh sh' sh'' : Shelf}

theorem refl (sh : Shelf) : Moves primary sh sh := ⟨.refl sh, rfl, rfl⟩

theorem trans (h : Moves primary sh sh') (h' : Moves primary sh' sh'') : Moves primary sh sh'' :=
  ⟨h.toFrame.trans h'.toFrame, h'.lastPage.trans h.lastPage, h'.rows.trans h.rows⟩

/-- Moving pages changes no key. -/
theorem keys (h : Moves primary sh sh') : sh'.index.keys = sh.index.keys := by
  have hkeys := congrArg SortedMap.keys h.rows
  rwa [Shelf.rows, Shelf.rows, keys_contentsOf, keys_contentsOf] at hkeys

end Moves

/-! ## What a shelf shows of its rows -/

section Shows

variable {t : ColumnType} {primary exempt : Nat} {sh : Shelf}

theorem keys_rows (primary : Nat) (sh : Shelf) : (sh.rows primary).keys = sh.index.keys :=
  keys_contentsOf primary sh.index sh.stored?

theorem contains_rows (primary : Nat) (sh : Shelf) (key : Entry) :
    sh.index.contains key = (sh.rows primary).contains key := by
  have h := SortedMap.getKey?_congr (keys_rows primary sh) key
  rw [Bool.eq_iff_iff, ← Bool.not_eq_false, ← Bool.not_eq_false (SortedMap.contains _ _),
    SortedMap.contains_eq_false_iff, SortedMap.contains_eq_false_iff,
    ← SortedMap.getKey?_eq_none_iff, ← SortedMap.getKey?_eq_none_iff, h]

theorem Sound.liveIndex (h : Sound t primary exempt sh) : sh.store.liveIndex = .ok sh.index := by
  simp [Store.liveIndex, h.live]

/-- Marks, stamps and pins of pages in memory may change, as long as a page that is no longer marked
has its rows in its file. -/
theorem Sound.remark (h : Sound t primary exempt sh) {s : Store} (halike : sh.store.Alike s)
    (hpages : s.pages.Ascending fun _ => True) (htracks : Tracks s.pages s.replacer)
    (hnone : ∀ n, sh.store.pages.get? n = none → s.pages.get? n = none)
    (hsome : ∀ n p, sh.store.pages.get? n = some p → ∃ p', s.pages.get? n = some p' ∧
      p'.number = p.number ∧ p'.keys = p.keys ∧ p'.size = p.size ∧
      (p'.dirty = p.dirty ∨ Matches sh.index sh.stored? n p ∧ sh.Filed n)) :
    Sound t primary exempt { sh with store := s } ∧ Moves primary sh { sh with store := s } := by
  have hindex : index { sh with store := s } = sh.index := by simp [index, halike.index]
  have hname (n : Nat) : s.fileName n = sh.store.fileName n := by
    simp only [Store.fileName, halike.database, halike.table]
  have himage (n : Nat) : image? { sh with store := s } n = sh.image? n :=
    image?_congr (hname n) rfl
  have hstored : stored? { sh with store := s } = sh.stored? :=
    funext fun n => stored?_congr (himage n)
  constructor
  · refine ⟨by rw [hindex]; exact halike.index.trans h.live, hpages, ?_, htracks, h.ordered⟩
    rw [hindex, hstored, halike.lastPage]
    refine h.agree.retouch hnone fun n p hp => ?_
    obtain ⟨p', hp', hnumber, hkeys, hsize, hdirty⟩ := hsome n p hp
    refine ⟨p', hp', hnumber, hkeys, hsize, fun hclean hn => ?_⟩
    rcases hdirty with hdirty | ⟨hmatches, -⟩
    · exact h.agree.clean hp (hdirty ▸ hclean) hn
    · exact hmatches
  · refine ⟨⟨halike.database, halike.table, halike.budget, halike.cap,
      Nat.le_of_eq halike.lastPage.symm, .of_directory_eq rfl, ?_⟩, halike.lastPage, ?_⟩
    · rintro n - - (⟨p, hp, hdirty⟩ | hfile)
      · obtain ⟨p', hp', -, -, -, hdirty'⟩ := hsome n p hp
        rcases hdirty' with hdirty' | ⟨-, hfile⟩
        · exact .inl ⟨p', hp', hdirty'.trans hdirty⟩
        · exact .inr (by rwa [Filed, himage])
      · exact .inr (by rwa [Filed, himage])
    · rw [rows, hindex, hstored, rows]

/-- A visit to a page in memory. -/
theorem Sound.visit (h : Sound t primary exempt sh) {n : Nat} {p : Page}
    (hp : sh.store.pages.get? n = some p) (pin : Bool) :
    Sound t primary exempt { sh with store := sh.store.visit n pin } ∧
      Moves primary sh { sh with store := sh.store.visit n pin } := by
  have hpages := Store.pages_visit hp pin
  refine h.remark (Store.alike_visit sh.store n pin) ?_ (h.tracks.visit h.pages hp pin) ?_ ?_
  · rw [hpages]
    exact h.pages.insert SortedMap.orderedOn_all trivial _
  · intro k hk
    have hne : k ≠ n := by rintro rfl; simp [hk] at hp
    rw [hpages, SortedMap.get?_insert_eq h.pages, if_neg hne, hk]
  · intro k q hq
    rw [hpages, SortedMap.get?_insert_eq h.pages]
    by_cases hk : k = n
    · obtain rfl : p = q := by simpa [hk, hp] using hq
      exact ⟨_, if_pos hk, rfl, rfl, rfl, .inl rfl⟩
    · exact ⟨q, by rw [if_neg hk, hq], rfl, rfl, rfl, .inl rfl⟩

end Shows

end Shelf

end PageDb
