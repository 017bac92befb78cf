import PageDb.Proofs.Store.Filling

/-!
The stamps of visits.

No two visits have the same stamp, since each one gets a later reading of the clock than all before
it.  So the page that was visited the longest ago is one page, whatever the order in which the visits
are looked through.  A store changes its replacer through the operations of the replacer only, and
what these keep is kept in every reachable state.
-/

namespace PageDb

/-! ## Stamps -/

namespace Replacer

/-- No stamp is ahead of the clock, and no two pages have the same one. -/
structure Stamped (r : Replacer) : Prop extends r.Counted where
  past : ∀ n v, r.visits.get? n = some v → v.stamp ≤ r.clock
  apart : ∀ m n v w, r.visits.get? m = some v → r.visits.get? n = some w → v.stamp = w.stamp → m = n

variable {r : Replacer} {n : Nat} {visits : List (Nat × Visit)} {v w : Nat × Visit}

theorem stamped_empty : Stamped {} where
  toCounted := counted_empty
  past _ _ h := nomatch h
  apart _ _ _ _ h := nomatch h

@[simp] theorem clock_visit (r : Replacer) (n : Nat) : (r.visit n).clock = r.clock + 1 := by
  unfold visit
  split <;> rfl

@[simp] theorem clock_setEvictable (r : Replacer) (n : Nat) (b : Bool) :
    (r.setEvictable n b).clock = r.clock := by
  unfold setEvictable
  split
  · split <;> rfl
  · rfl

@[simp] theorem clock_remove (r : Replacer) (n : Nat) : (r.remove n).clock = r.clock := by
  unfold remove
  split <;> rfl

/-- The new stamp is later than all others. -/
theorem Stamped.visit (h : r.Stamped) (n : Nat) : (r.visit n).Stamped := by
  have hget := get?_visit h.toCounted n
  have hother {k : Nat} {v : Visit} (hk : k ≠ n) (hv : (r.visit n).visits.get? k = some v) :
      r.visits.get? k = some v ∧ v.stamp ≤ r.clock := by
    rw [hget, if_neg hk] at hv
    exact ⟨hv, h.past k v hv⟩
  have hself {v : Visit} (hv : (r.visit n).visits.get? n = some v) : v.stamp = r.clock + 1 := by
    rw [hget, if_pos rfl, clock_visit] at hv
    rw [← Option.some.inj hv]
  refine ⟨h.toCounted.visit n, fun k v hv => ?_, fun k m v w hv hw heq => ?_⟩
  · rw [clock_visit]
    by_cases hk : k = n
    · subst hk
      exact Nat.le_of_eq (hself hv)
    · exact Nat.le_succ_of_le (hother hk hv).2
  · by_cases hk : k = n <;> by_cases hm : m = n
    · rw [hk, hm]
    · subst hk
      have := hself hv
      have := (hother hm hw).2
      omega
    · subst hm
      have := hself hw
      have := (hother hk hv).2
      omega
    · exact h.apart k m v w (hother hk hv).1 (hother hm hw).1 heq

/-- Visits that are left out or allowed otherwise keep their stamps. -/
theorem Stamped.of_stamps {r' : Replacer} (h : r.Stamped) (hcounted : r'.Counted)
    (hclock : r'.clock = r.clock)
    (hstamps : ∀ n v, r'.visits.get? n = some v →
      ∃ w, r.visits.get? n = some w ∧ w.stamp = v.stamp) : r'.Stamped := by
  refine ⟨hcounted, fun n v hv => ?_, fun m n v w hv hw heq => ?_⟩
  · obtain ⟨v', hv', hstamp⟩ := hstamps n v hv
    rw [hclock, ← hstamp]
    exact h.past n v' hv'
  · obtain ⟨v', hv', hstamp⟩ := hstamps m v hv
    obtain ⟨w', hw', hstamp'⟩ := hstamps n w hw
    exact h.apart m n v' w' hv' hw' (by rw [hstamp, heq, hstamp'])

theorem Stamped.setEvictable (h : r.Stamped) (n : Nat) (b : Bool) :
    (r.setEvictable n b).Stamped := by
  refine h.of_stamps (h.toCounted.setEvictable n b) (clock_setEvictable r n b) fun k v hv => ?_
  rw [get?_setEvictable h.toCounted] at hv
  split at hv
  · rename_i hk
    obtain ⟨w, hw, rfl⟩ := Option.map_eq_some_iff.1 hv
    exact ⟨w, hk ▸ hw, rfl⟩
  · exact ⟨v, hv, rfl⟩

theorem Stamped.remove (h : r.Stamped) (n : Nat) : (r.remove n).Stamped := by
  refine h.of_stamps (h.toCounted.remove n) (clock_remove r n) fun k v hv => ?_
  rw [get?_remove h.toCounted] at hv
  split at hv
  · cases hv
  · exact ⟨v, hv, rfl⟩

/-- No page that may be evicted has a smaller stamp than the oldest one. -/
theorem oldest?_le (h : oldest? visits = some v) (hw : w ∈ visits)
    (hevictable : w.2.evictable = true) : v.2.stamp ≤ w.2.stamp := by
  induction visits generalizing v with
  | nil => cases h
  | cons first rest ih =>
    rw [oldest?] at h
    split at h
    · -- `first` may be evicted, so it is compared with the oldest of the rest.
      have hv := Option.some.inj h
      rcases List.mem_cons.1 hw with rfl | hrest
      · rw [← hv]
        unfold earlier
        split
        · split <;> omega
        · exact Nat.le_refl _
      · cases hold : oldest? rest with
        | none =>
          rw [not_evictable_of_oldest?_eq_none hold hrest] at hevictable
          cases hevictable
        | some b =>
          have hb := ih hold hrest
          rw [← hv, hold]
          unfold earlier
          dsimp only
          split <;> omega
    · rename_i hfirst
      rcases List.mem_cons.1 hw with rfl | hrest
      · exact absurd hevictable hfirst
      · exact ih h hrest

/-- In whatever order the visits are looked through, the oldest one that may be evicted was made before
every other one that may be. -/
theorem Stamped.earliest_of_oldest? (h : r.Stamped) (horder : visits.Perm r.visits.toList)
    (hold : oldest? visits = some v) :
    r.visits.get? v.1 = some v.2 ∧ v.2.evictable = true ∧
      ∀ m w, m ≠ v.1 → r.visits.get? m = some w → w.evictable = true → v.2.stamp < w.stamp := by
  have hmem {m : Nat} {w : Visit} : (m, w) ∈ visits ↔ r.visits.get? m = some w := by
    rw [horder.mem_iff, SortedMap.mem_toList_iff h.ascending]
  obtain ⟨hv, hevictable⟩ := oldest?_evictable hold
  have hget := hmem.1 hv
  refine ⟨hget, hevictable, fun m w hm hw hw' => ?_⟩
  have hle := oldest?_le hold (hmem.2 hw) hw'
  exact Nat.lt_of_le_of_ne hle fun heq => hm (h.apart m v.1 w v.2 hw hget heq.symm)

/-- The victim may be evicted and was visited before every other page that may be. -/
theorem Stamped.victim? (h : r.Stamped) (hvictim : r.victim? = some n) :
    ∃ v, r.visits.get? n = some v ∧ v.evictable = true ∧
      ∀ m w, m ≠ n → r.visits.get? m = some w → w.evictable = true → v.stamp < w.stamp := by
  unfold Replacer.victim? at hvictim
  split at hvictim
  · cases hvictim
  obtain ⟨⟨k, v⟩, hv, rfl⟩ := Option.map_eq_some_iff.1 hvictim
  exact ⟨v, h.earliest_of_oldest? (.refl _) hv⟩

/-! ## Replacers that stores have -/

/-- A replacer and what its own operations lead to. -/
inductive Operated (r : Replacer) : Replacer → Prop where
  | refl : Operated r r
  | visit {r' : Replacer} (h : Operated r r') (n : Nat) : Operated r (r'.visit n)
  | setEvictable {r' : Replacer} (h : Operated r r') (n : Nat) (b : Bool) :
      Operated r (r'.setEvictable n b)
  | remove {r' : Replacer} (h : Operated r r') (n : Nat) : Operated r (r'.remove n)

theorem Operated.trans {r' r'' : Replacer} (h : Operated r r') (h' : Operated r' r'') :
    Operated r r'' := by
  induction h' with
  | refl => exact h
  | visit _ n ih => exact ih.visit n
  | setEvictable _ n b ih => exact ih.setEvictable n b
  | remove _ n ih => exact ih.remove n

theorem Stamped.operated {r' : Replacer} (h : r.Stamped) (hoperated : Operated r r') :
    r'.Stamped := by
  induction hoperated with
  | refl => exact h
  | visit _ n ih => exact ih.visit n
  | setEvictable _ n b ih => exact ih.setEvictable n b
  | remove _ n ih => exact ih.remove n

end Replacer

namespace Store

theorem operated_visit (s : Store) (n : Nat) (pin : Bool) :
    s.replacer.Operated (s.visit n pin).replacer := by
  have hvisit : s.replacer.Operated (s.replacer.visit n) := .visit .refl n
  unfold visit
  cases s.pages.get? n with
  | none => exact hvisit
  | some p =>
    dsimp only
    split
    · exact hvisit.setEvictable n false
    · exact hvisit

theorem operated_openPage (s : Store) : s.replacer.Operated s.openPage.replacer :=
  operated_visit { s with
    lastPage := s.lastPage + 1
    pages := s.pages.insert (s.lastPage + 1) { number := s.lastPage + 1 } } _ false

theorem operated_unpin (s : Store) : s.replacer.Operated s.unpin.replacer := by
  have hfold (numbers : List Nat) (s : Store) :
      s.replacer.Operated (numbers.foldl unpinPage s).replacer := by
    induction numbers generalizing s with
    | nil => exact .refl
    | cons n rest ih => exact .trans (.setEvictable .refl n true) (ih (s.unpinPage n))
  exact hfold _ s

end Store

namespace Shelf

/-- Whether it fails or not, an action changes the replacer through the replacer's own operations
only. -/
def Operates {α : Type} (a : Action Shelf α) : Prop :=
  ∀ sh : Shelf, sh.store.replacer.Operated (a.run sh).2.store.replacer

namespace Operates

/-- That operations lead from a replacer to the present one is an invariant. -/
theorem loads (r : Replacer) : (Invariant.ofStore fun s => r.Operated s.replacer).Loads :=
  { Invariant.evicts_ofStore (S := fun s => r.Operated s.replacer) (fun _ _ hs => hs)
      (fun _ n hs => hs.remove n) (fun _ n hs => hs.remove n) fun _ hs => hs with
    fetch := fun {_ _ slot} _ _ => by cases slot <;> trivial
    read := fun _ _ _ _ => ⟨trivial, fun _ _ _ _ _ _ => trivial⟩
    brought := fun hs _ _ _ _ => hs
    visited := fun hs _ n => hs.trans (Store.operated_visit _ n _)
    put := fun _ _ _ => trivial
    take := fun {_ _ _ slot} _ _ => ⟨trivial, by cases slot <;> trivial⟩
    modify := fun _ _ _ => trivial
    opened := fun hs => hs.trans (Store.operated_openPage _)
    changed := fun hs _ _ _ => hs
    anyAway := fun _ => trivial
    numbered := fun hs _ => hs
    unpinned := fun hs => hs.trans (Store.operated_unpin _) }

theorem call (primary : Nat) (c : StoreCall) : Operates (call primary c) := fun sh =>
  ((loads sh.store.replacer).keeps_call primary (Invariant.admits_ofStore _ c) sh .refl).1

theorem insertPage (rows : List Row) (primary : Nat) : Operates (insertPage rows primary) := fun sh =>
  ((loads sh.store.replacer).keeps_insertPage (fun _ _ => trivial) primary sh .refl).1

end Operates

end Shelf

/-- In every reachable state no two pages have been visited at the same time. -/
theorem Reachable.stamped {t : ColumnType} {primary : Nat} {sh : Shelf}
    (h : Reachable t primary sh) : sh.store.replacer.Stamped := by
  induction h with
  | new => exact Replacer.stamped_empty
  | @call sh c _ _ ih => exact ih.operated (Shelf.Operates.call primary c sh)
  | @load sh rows _ _ _ ih => exact ih.operated (Shelf.Operates.insertPage rows primary sh)

end PageDb
