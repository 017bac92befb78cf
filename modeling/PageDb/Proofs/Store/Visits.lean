import PageDb.Proofs.SortedMap
import PageDb.Store.Basic

/-!
What the replacer knows about the pages in memory.

`Tracks` says that the replacer has a visit for every page in memory and for no other page, that a
visit bears the stamp of its page, that the unpinned pages are those that may be evicted, and that
these are counted.
-/

namespace PageDb

/-- What the replacer should know about a page. -/
def Page.seen (p : Page) : Visit := ⟨p.lastVisit, !p.pinned⟩

namespace Replacer

/-- The visits ascend, and those of pages that may be evicted are counted. -/
structure Counted (r : Replacer) : Prop where
  ascending : r.visits.Ascending fun _ => True
  count : r.evictable = r.visits.count Visit.evictable

variable {r : Replacer}

theorem counted_empty : Counted {} := ⟨SortedMap.ascending_empty, rfl⟩

theorem Counted.visit (h : r.Counted) (n : Nat) : (r.visit n).Counted := by
  unfold Replacer.visit
  have hcount (v : Visit) := r.visits.count_insert Visit.evictable n v
  cases hget : r.visits.get? n with
  | some known =>
    refine ⟨h.ascending.insert SortedMap.orderedOn_all trivial _, ?_⟩
    have hknown := hcount { known with stamp := r.clock + 1 }
    simp only [hget, SortedMap.countOne] at hknown
    simp only [h.count]
    omega
  | none =>
    refine ⟨h.ascending.insert SortedMap.orderedOn_all trivial _, ?_⟩
    have hnew := hcount { stamp := r.clock + 1, evictable := true }
    simp only [hget, SortedMap.countOne, if_true] at hnew
    simp only [h.count]
    omega

/-- A visit gives the page a new stamp. -/
theorem get?_visit (h : r.Counted) (n k : Nat) :
    (r.visit n).visits.get? k =
      if k = n then some ⟨(r.visit n).clock, ((r.visits.get? n).map Visit.evictable).getD true⟩
      else r.visits.get? k := by
  unfold Replacer.visit
  cases r.visits.get? n <;> exact SortedMap.get?_insert_eq h.ascending n k _

theorem Counted.setEvictable (h : r.Counted) (n : Nat) (b : Bool) :
    (r.setEvictable n b).Counted := by
  unfold Replacer.setEvictable
  cases hget : r.visits.get? n with
  | none => exact h
  | some known =>
    dsimp only
    split
    · exact h
    rename_i hne
    refine ⟨h.ascending.insert SortedMap.orderedOn_all trivial _, ?_⟩
    have hcount := r.visits.count_insert Visit.evictable n { known with evictable := b }
    simp only [hget, SortedMap.countOne] at hcount
    rw [h.count]
    cases b with
    | true => simp_all
    | false =>
      simp_all
      omega

theorem get?_setEvictable (h : r.Counted) (n k : Nat) (b : Bool) :
    (r.setEvictable n b).visits.get? k =
      if k = n then (r.visits.get? n).map fun v => { v with evictable := b }
      else r.visits.get? k := by
  unfold Replacer.setEvictable
  cases hget : r.visits.get? n with
  | none => by_cases hk : k = n <;> simp [hk, hget]
  | some known =>
    dsimp only
    split
    · rename_i heq
      by_cases hk : k = n
      · simp [hk, hget, ← heq]
      · simp [hk]
    · exact SortedMap.get?_insert_eq h.ascending n k _

theorem Counted.remove (h : r.Counted) (n : Nat) : (r.remove n).Counted := by
  unfold Replacer.remove
  cases hget : r.visits.get? n with
  | none => exact h
  | some known =>
    refine ⟨h.ascending.erase n, ?_⟩
    have hcount := r.visits.count_erase Visit.evictable n
    simp only [hget, SortedMap.countOne] at hcount
    simp only [h.count]
    split
    · simp_all
      omega
    · simp_all

theorem get?_remove (h : r.Counted) (n k : Nat) :
    (r.remove n).visits.get? k = if k = n then none else r.visits.get? k := by
  unfold Replacer.remove
  cases hget : r.visits.get? n with
  | none => by_cases hk : k = n <;> simp [hk, hget]
  | some known => exact SortedMap.get?_erase_eq h.ascending n k

/-! ## The page to evict -/

section Victim

variable {n : Nat} {visits : List (Nat × Visit)} {v : Nat × Visit}

theorem oldest?_evictable (h : oldest? visits = some v) : v ∈ visits ∧ v.2.evictable = true := by
  induction visits generalizing v with
  | nil => cases h
  | cons first rest ih =>
    rw [oldest?] at h
    split at h
    · rename_i hfirst
      have hself : first ∈ first :: rest ∧ first.2.evictable = true := ⟨List.mem_cons_self, hfirst⟩
      cases hrest : oldest? rest with
      | none =>
        obtain rfl : first = v := by simpa [earlier, hrest] using h
        exact hself
      | some w =>
        obtain ⟨hw, hevictable⟩ := ih hrest
        simp only [earlier, hrest] at h
        split at h
        · obtain rfl := Option.some.inj h
          exact ⟨List.mem_cons_of_mem _ hw, hevictable⟩
        · obtain rfl := Option.some.inj h
          exact hself
    · obtain ⟨hv, hevictable⟩ := ih h
      exact ⟨List.mem_cons_of_mem _ hv, hevictable⟩

/-- The victim is a page that may be evicted. -/
theorem evictable_of_victim? (h : r.Counted) (hvictim : r.victim? = some n) :
    (r.visits.get? n).map Visit.evictable = some true := by
  unfold victim? at hvictim
  split at hvictim
  · cases hvictim
  · obtain ⟨⟨k, v⟩, hv, rfl⟩ := Option.map_eq_some_iff.1 hvictim
    obtain ⟨hmem, hevictable⟩ := oldest?_evictable hv
    rw [(SortedMap.mem_toList_iff h.ascending).1 hmem]
    exact congrArg some hevictable

end Victim

end Replacer

/-- The replacer knows exactly the pages in memory, each by its last visit, and counts those that
are not pinned. -/
structure Tracks (pages : SortedMap Nat Page) (r : Replacer) : Prop where
  counted : r.Counted
  seen : ∀ n, r.visits.get? n = (pages.get? n).map Page.seen

namespace Tracks

variable {s : Store} {pages : SortedMap Nat Page} {r : Replacer}

theorem empty : Tracks ∅ {} := ⟨Replacer.counted_empty, fun _ => rfl⟩

/-- The page chosen for eviction is in memory and not pinned. -/
theorem exists_of_victim? (h : Tracks pages r) {n : Nat} (hvictim : r.victim? = some n) :
    ∃ p, pages.get? n = some p ∧ p.pinned = false := by
  have hevictable := Replacer.evictable_of_victim? h.counted hvictim
  rw [h.seen, Option.map_map] at hevictable
  obtain ⟨p, hp, hpinned⟩ := Option.map_eq_some_iff.1 hevictable
  exact ⟨p, hp, by simpa [Page.seen] using hpinned⟩

/-- Changing rows of a page is no visit. -/
theorem insert (h : Tracks pages r) (hpages : pages.Ascending fun _ => True) {n : Nat} {p q : Page}
    (hp : pages.get? n = some p) (hseen : q.seen = p.seen) : Tracks (pages.insert n q) r := by
  refine ⟨h.counted, fun k => ?_⟩
  rw [h.seen, SortedMap.get?_insert_eq hpages]
  by_cases hk : k = n
  · simp [hk, hp, hseen]
  · simp [hk]

/-- Forgetting a page. -/
theorem forgetPage (h : Tracks s.pages s.replacer) (hpages : s.pages.Ascending fun _ => True)
    (n : Nat) : Tracks (s.forgetPage n).pages (s.forgetPage n).replacer := by
  refine ⟨h.counted.remove n, fun k => ?_⟩
  simp only [Store.forgetPage, Replacer.get?_remove h.counted, SortedMap.get?_erase_eq hpages,
    h.seen]
  split <;> rfl

/-- Unpinning a page. -/
theorem unpinPage (h : Tracks s.pages s.replacer) (n : Nat) :
    Tracks (s.unpinPage n).pages (s.unpinPage n).replacer := by
  refine ⟨h.counted.setEvictable n true, fun k => ?_⟩
  simp only [Store.unpinPage, Replacer.get?_setEvictable h.counted, SortedMap.get?_modify_eq,
    h.seen]
  by_cases hk : k = n
  · subst hk
    cases s.pages.get? k <;> simp [Page.seen]
  · simp [hk]

end Tracks

/-! ## Visiting a page -/

namespace Store

variable {s : Store} {n : Nat} {p : Page}

/-- The page after a visit. -/
def visited (s : Store) (n : Nat) (pin : Bool) (p : Page) : Page :=
  { p with lastVisit := (s.replacer.visit n).clock, pinned := p.pinned || pin }

/-- A store that differs from another one in what it says about pages in memory only. -/
structure Alike (s s' : Store) : Prop where
  database : s'.database = s.database
  table : s'.table = s.table
  budget : s'.budget = s.budget
  cap : s'.cap = s.cap
  lastPage : s'.lastPage = s.lastPage
  index : s'.index = s.index

theorem Alike.trans {s s' s'' : Store} (h : Alike s s') (h' : Alike s' s'') : Alike s s'' :=
  ⟨h'.database.trans h.database, h'.table.trans h.table, h'.budget.trans h.budget,
    h'.cap.trans h.cap, h'.lastPage.trans h.lastPage, h'.index.trans h.index⟩

theorem alike_visit (s : Store) (n : Nat) (pin : Bool) : Alike s (s.visit n pin) := by
  unfold visit
  split
  · exact ⟨rfl, rfl, rfl, rfl, rfl, rfl⟩
  · dsimp only
    split <;> exact ⟨rfl, rfl, rfl, rfl, rfl, rfl⟩

/-- Unpinning changes what a store says about its pages only. -/
theorem alike_unpin (s : Store) : Alike s s.unpin := by
  have hfold (numbers : List Nat) (s : Store) : Alike s (numbers.foldl unpinPage s) := by
    induction numbers generalizing s with
    | nil => exact ⟨rfl, rfl, rfl, rfl, rfl, rfl⟩
    | cons n rest ih =>
      have hpage : Alike s (s.unpinPage n) := ⟨rfl, rfl, rfl, rfl, rfl, rfl⟩
      exact hpage.trans (ih _)
  exact hfold _ s

/-- A visit stamps the page, and pins it if asked to. -/
theorem pages_visit (hp : s.pages.get? n = some p) (pin : Bool) :
    (s.visit n pin).pages = s.pages.insert n (s.visited n pin p) := by
  unfold visit visited
  simp only [hp]
  split
  · rename_i h
    simp [h.1, h.2]
  · rename_i h
    cases hpin : pin <;> cases hpinned : p.pinned <;> simp_all

/-- A visit reads no page back. -/
@[simp] theorem resurrections_visit (s : Store) (n : Nat) (pin : Bool) :
    (s.visit n pin).resurrections = s.resurrections := by
  unfold visit
  cases s.pages.get? n with
  | none => rfl
  | some p =>
    dsimp only
    split <;> rfl

theorem ascending_visit (hpages : s.pages.Ascending fun _ => True) (n : Nat) (pin : Bool) :
    (s.visit n pin).pages.Ascending fun _ => True := by
  cases hp : s.pages.get? n with
  | none => simpa only [visit, hp] using hpages
  | some p =>
    rw [pages_visit hp]
    exact hpages.insert SortedMap.orderedOn_all trivial _

/-- A visit moves no page. -/
theorem isSome_get?_visit (hpages : s.pages.Ascending fun _ => True) (n : Nat) (pin : Bool) (m : Nat) :
    ((s.visit n pin).pages.get? m).isSome = (s.pages.get? m).isSome := by
  cases hp : s.pages.get? n with
  | none => simp only [visit, hp]
  | some p =>
    rw [pages_visit hp, SortedMap.get?_insert_eq hpages]
    split
    · rename_i hm
      rw [hm, hp]
      rfl
    · rfl

/-- A page that is in memory and stays there. -/
def Pinned (s : Store) (n : Nat) : Prop := ∃ p, s.pages.get? n = some p ∧ p.pinned = true

instance (s : Store) (n : Nat) : Decidable (s.Pinned n) :=
  decidable_of_iff ((s.pages.get? n).any Page.pinned = true) (Option.any_eq_true _ _)

/-- A visit that is asked to pins the page. -/
theorem pinned_visit (hpages : s.pages.Ascending fun _ => True) (hp : s.pages.get? n = some p) :
    (s.visit n true).Pinned n := by
  refine ⟨s.visited n true p, ?_, by simp [visited]⟩
  rw [pages_visit hp, SortedMap.get?_insert_eq hpages, if_pos rfl]

/-- A visit keeps the replacer up to date, also if the page has just come into memory and is not
known yet. -/
theorem tracks_visit (hpages : s.pages.Ascending fun _ => True) (hr : s.replacer.Counted)
    (hothers : ∀ k, k ≠ n → s.replacer.visits.get? k = (s.pages.get? k).map Page.seen)
    (hp : s.pages.get? n = some p)
    (hn : s.replacer.visits.get? n = none ∧ p.pinned = false ∨
      s.replacer.visits.get? n = some p.seen) (pin : Bool) :
    Tracks (s.visit n pin).pages (s.visit n pin).replacer := by
  have hevictable : ((s.replacer.visits.get? n).map Visit.evictable).getD true = !p.pinned := by
    rcases hn with ⟨hnone, hpinned⟩ | hsome
    · simp [hnone, hpinned]
    · simp [hsome, Page.seen]
  have hvisit := Replacer.get?_visit hr n
  rw [hevictable] at hvisit
  rw [pages_visit hp]
  unfold visit
  simp only [hp]
  split
  · rename_i h
    refine ⟨(hr.visit n).setEvictable n false, fun k => ?_⟩
    rw [Replacer.get?_setEvictable (hr.visit n), hvisit, hvisit, SortedMap.get?_insert_eq hpages]
    by_cases hk : k = n
    · simp [hk, visited, Page.seen, h.1]
    · simp [hk, hothers k hk]
  · rename_i h
    refine ⟨hr.visit n, fun k => ?_⟩
    rw [hvisit, SortedMap.get?_insert_eq hpages]
    by_cases hk : k = n
    · cases hpin : pin <;> cases hpinned : p.pinned <;> simp_all [visited, Page.seen]
    · simp [hk, hothers k hk]

end Store

/-- Visiting a page that is known. -/
theorem Tracks.visit {s : Store} {n : Nat} {p : Page} (h : Tracks s.pages s.replacer)
    (hpages : s.pages.Ascending fun _ => True) (hp : s.pages.get? n = some p) (pin : Bool) :
    Tracks (s.visit n pin).pages (s.visit n pin).replacer :=
  Store.tracks_visit hpages h.counted (fun k _ => h.seen k) hp
    (.inr (by rw [h.seen, hp]; rfl)) pin

/-! ## Bringing a page into memory -/

namespace Store

variable {s : Store} {n : Nat} {p : Page}

/-- The store with a page that is new in memory, after its first visit. -/
def bring (s : Store) (n : Nat) (p : Page) : Store :=
  visit { s with pages := s.pages.insert n p } n false

theorem openPage_eq (s : Store) :
    s.openPage = ({ s with lastPage := s.lastPage + 1 } : Store).bring (s.lastPage + 1)
      { number := s.lastPage + 1 } := rfl

/-- What a first visit leaves of a page. -/
def arrived (s : Store) (n : Nat) (p : Page) : Page :=
  { p with lastVisit := (s.replacer.visit n).clock }

theorem alike_bring (s : Store) (n : Nat) (p : Page) : s.Alike (s.bring n p) :=
  have hpages : s.Alike { s with pages := s.pages.insert n p } := ⟨rfl, rfl, rfl, rfl, rfl, rfl⟩
  hpages.trans (alike_visit _ n false)

theorem resurrections_bring (s : Store) (n : Nat) (p : Page) :
    (s.bring n p).resurrections = s.resurrections := resurrections_visit _ n false

theorem pages_bring (h : s.pages.Ascending fun _ => True) (n : Nat) (p : Page) :
    (s.bring n p).pages = (s.pages.insert n p).insert n (s.arrived n p) := by
  have hp : (s.pages.insert n p).get? n = some p := by
    rw [SortedMap.get?_insert_eq h, if_pos rfl]
  rw [bring, pages_visit (s := { s with pages := s.pages.insert n p }) hp]
  simp [visited, arrived]

theorem ascending_bring (h : s.pages.Ascending fun _ => True) (n : Nat) (p : Page) :
    (s.bring n p).pages.Ascending fun _ => True := by
  rw [pages_bring h]
  exact (h.insert SortedMap.orderedOn_all trivial _).insert SortedMap.orderedOn_all trivial _

theorem get?_bring (h : s.pages.Ascending fun _ => True) (n : Nat) (p : Page) (m : Nat) :
    (s.bring n p).pages.get? m = if m = n then some (s.arrived n p) else s.pages.get? m := by
  rw [pages_bring h, SortedMap.get?_insert_eq (h.insert SortedMap.orderedOn_all trivial p)]
  split
  · rfl
  · rename_i hm
    rw [SortedMap.get?_insert_eq h, if_neg hm]

end Store

/-- The replacer learns of a page that comes into memory. -/
theorem Tracks.bring {s : Store} {n : Nat} {p : Page} (h : Tracks s.pages s.replacer)
    (hpages : s.pages.Ascending fun _ => True) (hn : s.pages.get? n = none)
    (hpinned : p.pinned = false) : Tracks (s.bring n p).pages (s.bring n p).replacer := by
  refine Store.tracks_visit (s := { s with pages := s.pages.insert n p })
    (hpages.insert SortedMap.orderedOn_all trivial p) h.counted (fun k hk => ?_) (p := p) ?_
    (.inl ⟨?_, hpinned⟩) false
  · rw [SortedMap.get?_insert_eq hpages, if_neg hk, h.seen]
  · rw [SortedMap.get?_insert_eq hpages, if_pos rfl]
  · rw [h.seen, hn]
    rfl

end PageDb
