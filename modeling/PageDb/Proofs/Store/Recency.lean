import PageDb.Proofs.Store.Stamps

/-!
The replacer as a list of pages in the order of their last visits.

In a `Recency` a visit moves a page to the end, and the page to evict is the first one that may be
evicted.  `Replacer.Ranks` says that a replacer knows the pages of such a list, that it allows the
same of them to be evicted, and that their stamps ascend along the list.  Every call keeps this, so
the two give the same answers; and since no two stamps are equal, the order in which a replacer looks
through its visits decides nothing.
-/

namespace PageDb

/-- A call on a replacer. -/
inductive ReplacerCall where
  | visit (page : Nat)
  | setEvictable (page : Nat) (evictable : Bool)
  | remove (page : Nat)
  | clear
deriving DecidableEq, Repr

/-- Whether a call records a visit. -/
def ReplacerCall.isVisit : ReplacerCall → Bool
  | .visit _ => true
  | _ => false

/-! ## Lists of pages -/

/-- Pages in the order of their last visits, each with whether it may be evicted. -/
abbrev Recency := List (Nat × Bool)

namespace Recency

/-- Leaves a page out. -/
def remove (l : Recency) (page : Nat) : Recency := l.filter fun p => p.1 ≠ page

/-- Moves a page to the end; one that is not in the list yet may be evicted. -/
def visit (l : Recency) (page : Nat) : Recency :=
  l.remove page ++ [(l.find? fun p => p.1 = page).getD (page, true)]

/-- Says whether a page of the list may be evicted. -/
def setEvictable (l : Recency) (page : Nat) (evictable : Bool) : Recency :=
  l.map fun p => if p.1 = page then (page, evictable) else p

/-- The list after a call. -/
def after (l : Recency) : ReplacerCall → Recency
  | .visit page => l.visit page
  | .setEvictable page evictable => l.setEvictable page evictable
  | .remove page => l.remove page
  | .clear => []

/-- The first page that may be evicted. -/
def victim? (l : Recency) : Option Nat := (l.find? Prod.snd).map Prod.fst

/-- The number of pages that may be evicted. -/
def size (l : Recency) : Nat := l.countP Prod.snd

variable {l : Recency} {n k : Nat} {b c : Bool}

theorem mem_remove : (k, b) ∈ l.remove n ↔ k ≠ n ∧ (k, b) ∈ l := by
  simp [remove, and_comm]

theorem mem_setEvictable :
    (k, b) ∈ l.setEvictable n c ↔
      if k = n then b = c ∧ ∃ old, (n, old) ∈ l else (k, b) ∈ l := by
  simp only [setEvictable, List.mem_map, Prod.exists]
  split
  · rename_i hk
    constructor
    · rintro ⟨m, old, hmem, heq⟩
      split at heq
      · rename_i hm
        exact ⟨(Prod.ext_iff.1 heq).2.symm, old, hm ▸ hmem⟩
      · rename_i hm
        exact absurd ((Prod.ext_iff.1 heq).1.trans hk) hm
    · rintro ⟨rfl, old, hmem⟩
      exact ⟨n, old, hmem, by rw [if_pos rfl, hk]⟩
  · rename_i hk
    constructor
    · rintro ⟨m, old, hmem, heq⟩
      split at heq
      · exact absurd (Prod.ext_iff.1 heq).1.symm hk
      · exact heq ▸ hmem
    · intro hmem
      exact ⟨k, b, hmem, if_neg hk⟩

end Recency

/-! ## Calls -/

namespace Replacer

/-- The replacer after a call. -/
def after (r : Replacer) : ReplacerCall → Replacer
  | .visit page => r.visit page
  | .setEvictable page evictable => r.setEvictable page evictable
  | .remove page => r.remove page
  | .clear => r.clear

/-- The page to evict, if the visits are looked through in the given order. -/
def victimIn? (r : Replacer) (order : List (Nat × Visit)) : Option Nat :=
  if r.evictable = 0 then none else (oldest? order).map Prod.fst

/-- Whether a call takes one off the number of pages that may be evicted. -/
def lowers (r : Replacer) : ReplacerCall → Bool
  | .setEvictable page evictable => !evictable && (r.visits.get? page).any Visit.evictable
  | .remove page => (r.visits.get? page).any Visit.evictable
  | _ => false

variable {r : Replacer} {l : Recency} {n k : Nat} {order : List (Nat × Visit)}

theorem counted_clear (r : Replacer) : r.clear.Counted := ⟨SortedMap.ascending_empty, rfl⟩

theorem Stamped.clear (h : r.Stamped) : r.clear.Stamped :=
  h.of_stamps r.counted_clear rfl fun _ _ hv => nomatch hv

/-- Only a visit moves the clock. -/
theorem clock_after (r : Replacer) (c : ReplacerCall) :
    (r.after c).clock = r.clock + if c.isVisit then 1 else 0 := by
  cases c <;> simp [Replacer.after, ReplacerCall.isVisit, Replacer.clear]

/-- The clock counts the visits. -/
theorem clock_foldl_after (calls : List ReplacerCall) (r : Replacer) :
    (calls.foldl after r).clock = r.clock + calls.countP ReplacerCall.isVisit := by
  induction calls generalizing r with
  | nil => rfl
  | cons c rest ih =>
    rw [List.foldl_cons, ih, clock_after, List.countP_cons]
    omega

/-- Nothing is taken off an empty number of pages. -/
theorem Counted.evictable_pos {v : Visit} (h : r.Counted) (hv : r.visits.get? n = some v)
    (hevictable : v.evictable = true) : 0 < r.evictable := by
  rw [h.count]
  exact List.countP_pos_iff.2 ⟨(n, v), (SortedMap.mem_toList_iff h.ascending).2 hv, hevictable⟩

theorem Counted.evictable_after_of_lowers {c : ReplacerCall} (h : r.Counted)
    (hlowers : r.lowers c = true) : (r.after c).evictable + 1 = r.evictable := by
  cases c with
  | visit n => cases hlowers
  | setEvictable n b =>
    obtain ⟨hb, hallowed⟩ := Bool.and_eq_true_iff.1 hlowers
    obtain ⟨v, hv, hevictable⟩ := (Option.any_eq_true _ _).1 hallowed
    have hpos := h.evictable_pos hv hevictable
    obtain rfl : b = false := by simpa using hb
    simp only [Replacer.after, Replacer.setEvictable, hv, hevictable, Bool.true_eq_false,
      Bool.false_eq_true, if_false]
    omega
  | remove n =>
    obtain ⟨v, hv, hevictable⟩ := (Option.any_eq_true _ _).1 hlowers
    have hpos := h.evictable_pos hv hevictable
    simp only [Replacer.after, Replacer.remove, hv, hevictable, if_true]
    omega
  | clear => cases hlowers

/-- Only forgetting all pages lowers the number without taking one off it. -/
theorem evictable_le_after {c : ReplacerCall} (hlowers : r.lowers c = false) :
    c = .clear ∨ r.evictable ≤ (r.after c).evictable := by
  cases c with
  | visit n =>
    refine .inr ?_
    simp only [Replacer.after, Replacer.visit]
    split <;> simp
  | setEvictable n b =>
    refine .inr ?_
    cases hget : r.visits.get? n with
    | none => simp [Replacer.after, Replacer.setEvictable, hget]
    | some v =>
      simp only [lowers, hget, Option.any_some] at hlowers
      simp only [Replacer.after, Replacer.setEvictable, hget]
      cases hv : v.evictable <;> cases b <;> simp_all
  | remove n =>
    refine .inr ?_
    cases hget : r.visits.get? n with
    | none => simp [Replacer.after, Replacer.remove, hget]
    | some v =>
      simp only [lowers, hget, Option.any_some] at hlowers
      simp [Replacer.after, Replacer.remove, hget, hlowers]
  | clear => exact .inl rfl

/-! ## The order of the stamps -/

/-- The stamp of a page, zero for a page that is not known. -/
def stampOf (r : Replacer) (page : Nat) : Nat := ((r.visits.get? page).map Visit.stamp).getD 0

theorem stampOf_of_get? {v : Visit} (hv : r.visits.get? n = some v) : r.stampOf n = v.stamp := by
  simp [stampOf, hv]

theorem stampOf_visit (h : r.Counted) (n k : Nat) :
    (r.visit n).stampOf k = if k = n then r.clock + 1 else r.stampOf k := by
  unfold stampOf
  rw [get?_visit h, clock_visit]
  split <;> rfl

theorem stampOf_setEvictable (h : r.Counted) (n k : Nat) (b : Bool) :
    (r.setEvictable n b).stampOf k = r.stampOf k := by
  unfold stampOf
  rw [get?_setEvictable h]
  split
  · rename_i hk
    rw [hk, Option.map_map]
    rfl
  · rfl

theorem stampOf_remove (h : r.Counted) (hk : k ≠ n) : (r.remove n).stampOf k = r.stampOf k := by
  unfold stampOf
  rw [get?_remove h, if_neg hk]

theorem Stamped.stampOf_le (h : r.Stamped) (n : Nat) : r.stampOf n ≤ r.clock := by
  unfold stampOf
  cases hget : r.visits.get? n with
  | none => exact Nat.zero_le _
  | some v => exact h.past n v hget

/-- The replacer knows the pages of the list, with the same of them that may be evicted, and they
were visited in the order of the list. -/
structure Ranks (r : Replacer) (l : Recency) : Prop where
  stamped : r.Stamped
  mem_iff : ∀ n b, (n, b) ∈ l ↔ (r.visits.get? n).map Visit.evictable = some b
  ascending : l.Pairwise fun p q => r.stampOf p.1 < r.stampOf q.1

theorem ranks_empty : Ranks {} [] where
  stamped := stamped_empty
  mem_iff _ _ := ⟨fun h => (List.not_mem_nil h).elim, fun h => nomatch h⟩
  ascending := .nil

/-- The list says of a page what the replacer says. -/
theorem Ranks.find?_eq (h : r.Ranks l) (n : Nat) :
    (l.find? fun p => p.1 = n) = (r.visits.get? n).map fun v => (n, v.evictable) := by
  cases hfind : l.find? fun p => p.1 = n with
  | some p =>
    obtain ⟨m, b⟩ := p
    obtain rfl : m = n := by simpa using List.find?_some hfind
    have hmem := List.mem_of_find?_eq_some hfind
    obtain ⟨v, hv, rfl⟩ := Option.map_eq_some_iff.1 ((h.mem_iff m b).1 hmem)
    rw [hv]
    rfl
  | none =>
    cases hget : r.visits.get? n with
    | none => rfl
    | some v =>
      have hmem := (h.mem_iff n v.evictable).2 (by rw [hget]; rfl)
      exact absurd (decide_eq_true rfl) (List.find?_eq_none.1 hfind _ hmem)

/-- A page that is left out changes nothing for the others. -/
theorem Ranks.ascending_remove (h : r.Ranks l) {r' : Replacer}
    (hsame : ∀ k, k ≠ n → r'.stampOf k = r.stampOf k) :
    (l.remove n).Pairwise fun p q => r'.stampOf p.1 < r'.stampOf q.1 := by
  refine (h.ascending.filter _).imp_of_mem fun hp hq hlt => ?_
  rwa [hsame _ (Recency.mem_remove.1 hp).1, hsame _ (Recency.mem_remove.1 hq).1]

/-- The page that is visited gets the latest stamp of all. -/
theorem Ranks.visit (h : r.Ranks l) (n : Nat) : (r.visit n).Ranks (l.visit n) where
  stamped := h.stamped.visit n
  mem_iff k b := by
    rw [get?_visit h.stamped.toCounted, Recency.visit, h.find?_eq, List.mem_append,
      Recency.mem_remove, List.mem_singleton, h.mem_iff]
    by_cases hk : k = n
    · subst hk
      cases r.visits.get? k <;> simp [eq_comm]
    · cases r.visits.get? n <;> simp [hk]
  ascending := by
    have hstamp := stampOf_visit h.stamped.toCounted n
    rw [Recency.visit, h.find?_eq, List.pairwise_append]
    refine ⟨h.ascending_remove fun k hk => ?_, List.pairwise_singleton .., fun p hp q hq => ?_⟩
    · rw [hstamp, if_neg hk]
    · obtain rfl := List.mem_singleton.1 hq
      have hlast : (((r.visits.get? n).map fun v => (n, v.evictable)).getD (n, true)).1 = n := by
        cases r.visits.get? n <;> rfl
      rw [hlast, hstamp, if_neg (Recency.mem_remove.1 hp).1, hstamp, if_pos rfl]
      exact Nat.lt_succ_of_le (h.stamped.stampOf_le p.1)

theorem Ranks.setEvictable (h : r.Ranks l) (n : Nat) (b : Bool) :
    (r.setEvictable n b).Ranks (l.setEvictable n b) where
  stamped := h.stamped.setEvictable n b
  mem_iff k c := by
    rw [get?_setEvictable h.stamped.toCounted, Recency.mem_setEvictable]
    by_cases hk : k = n
    · simp only [hk, if_true, h.mem_iff]
      cases r.visits.get? n <;> simp [eq_comm]
    · simp only [hk, if_false, h.mem_iff]
  ascending := by
    refine List.pairwise_map.2 (h.ascending.imp fun {p q} hlt => ?_)
    have hpage (p : Nat × Bool) : (if p.1 = n then (n, b) else p).1 = p.1 := by
      split
      · rename_i hp
        exact hp.symm
      · rfl
    simpa only [hpage, stampOf_setEvictable h.stamped.toCounted] using hlt

theorem Ranks.remove (h : r.Ranks l) (n : Nat) : (r.remove n).Ranks (l.remove n) where
  stamped := h.stamped.remove n
  mem_iff k b := by
    rw [get?_remove h.stamped.toCounted, Recency.mem_remove, h.mem_iff]
    by_cases hk : k = n <;> simp [hk]
  ascending := h.ascending_remove fun _ hk => stampOf_remove h.stamped.toCounted hk

theorem Ranks.clear (h : r.Ranks l) : r.clear.Ranks [] :=
  ⟨h.stamped.clear, ranks_empty.mem_iff, .nil⟩

theorem Ranks.after (h : r.Ranks l) (c : ReplacerCall) : (r.after c).Ranks (l.after c) := by
  cases c with
  | visit n => exact h.visit n
  | setEvictable n b => exact h.setEvictable n b
  | remove n => exact h.remove n
  | clear => exact h.clear

/-- Calls keep a replacer and a list together. -/
theorem Ranks.foldl_after (h : r.Ranks l) (calls : List ReplacerCall) :
    (calls.foldl Replacer.after r).Ranks (calls.foldl Recency.after l) := by
  induction calls generalizing r l with
  | nil => exact h
  | cons c rest ih => exact ih (h.after c)

/-! ## Answers -/

/-- The list has the visits in another order, without their stamps. -/
theorem Ranks.perm (h : r.Ranks l) :
    l.Perm (r.visits.toList.map fun v => (v.1, v.2.evictable)) := by
  have hl : l.Nodup := h.ascending.imp fun {p q} hlt heq => by
    rw [heq] at hlt
    exact Nat.lt_irrefl _ hlt
  have hkeys := h.stamped.ascending.nodup_keys SortedMap.orderedOn_all
  have hvisits : (r.visits.toList.map fun v => (v.1, v.2.evictable)).Nodup :=
    List.pairwise_map.2 ((List.pairwise_map.1 hkeys).imp fun hne heq => hne (Prod.mk.inj heq).1)
  refine (List.perm_ext_iff_of_nodup hl hvisits).2 fun ⟨n, b⟩ => ?_
  rw [h.mem_iff, Option.map_eq_some_iff, List.mem_map]
  constructor
  · rintro ⟨v, hv, rfl⟩
    exact ⟨(n, v), (SortedMap.mem_toList_iff h.stamped.ascending).2 hv, rfl⟩
  · rintro ⟨⟨m, v⟩, hmem, heq⟩
    obtain ⟨rfl, rfl⟩ := Prod.ext_iff.1 heq
    exact ⟨v, (SortedMap.mem_toList_iff h.stamped.ascending).1 hmem, rfl⟩

theorem Ranks.evictable_eq_size (h : r.Ranks l) : r.evictable = l.size := by
  rw [h.stamped.count, Recency.size, h.perm.countP_eq, List.countP_map]
  rfl

/-- The first page that may be evicted was visited before all others that may be. -/
theorem Ranks.stampOf_first_lt (h : r.Ranks l) {p : Nat × Bool} (hfirst : l.find? Prod.snd = some p)
    (hk : (k, true) ∈ l) (hne : k ≠ p.1) : r.stampOf p.1 < r.stampOf k := by
  obtain ⟨-, front, back, rfl, hfront⟩ := List.find?_eq_some_iff_append.1 hfirst
  obtain ⟨-, hback, -⟩ := List.pairwise_append.1 h.ascending
  rcases List.mem_append.1 hk with hk | hk
  · cases hfront _ hk
  rcases List.mem_cons.1 hk with rfl | hk
  · exact absurd rfl hne
  · exact (List.pairwise_cons.1 hback).1 _ hk

/-- In whatever order the visits are looked through, the oldest one that may be evicted is the first
such page of the list. -/
theorem Ranks.oldest?_eq (h : r.Ranks l) (horder : order.Perm r.visits.toList) :
    (oldest? order).map Prod.fst = l.victim? := by
  unfold Recency.victim?
  cases hold : oldest? order with
  | none =>
    have hnone : l.find? Prod.snd = none := List.find?_eq_none.2 fun ⟨n, b⟩ hin hb => by
      obtain ⟨w, hw, rfl⟩ := Option.map_eq_some_iff.1 ((h.mem_iff n b).1 hin)
      have hmem := horder.mem_iff.2 ((SortedMap.mem_toList_iff h.stamped.ascending).2 hw)
      cases (not_evictable_of_oldest?_eq_none hold hmem).symm.trans hb
    rw [hnone]
    rfl
  | some found =>
    obtain ⟨hget, hevictable, hearliest⟩ := h.stamped.earliest_of_oldest? horder hold
    have hin : (found.1, true) ∈ l := by
      rw [h.mem_iff, hget]
      exact congrArg some hevictable
    have hsome : (l.find? Prod.snd).isSome = true := List.find?_isSome.2 ⟨_, hin, rfl⟩
    obtain ⟨⟨n, b⟩, hfirst⟩ := Option.isSome_iff_exists.1 hsome
    rw [hfirst]
    by_cases hne : found.1 = n
    · exact congrArg some hne
    -- Two different pages would each have been visited before the other.
    obtain ⟨w, hw, rfl⟩ :=
      Option.map_eq_some_iff.1 ((h.mem_iff n b).1 (List.mem_of_find?_eq_some hfirst))
    have hallowed : (n, w.evictable).2 = true := List.find?_some hfirst
    have hlt := h.stampOf_first_lt hfirst hin hne
    rw [stampOf_of_get? hw, stampOf_of_get? hget] at hlt
    exact absurd (hearliest n w (Ne.symm hne) hw hallowed) (Nat.lt_asymm hlt)

/-- After any calls, a replacer that was new gives the answers of the list of pages in the order of
their last visits.  The victim is the first page of the list that may be evicted, or none if there is
none, and it is the same in whatever order the visits are looked through.  The counter is the number
of pages that may be evicted; it is not zero when one is taken off it, and only `clear` lowers it in
another way.  The clock, which a visit is answered with, is the number of visits so far. -/
theorem answers_as_recency (calls : List ReplacerCall) :
    let r := calls.foldl Replacer.after {}
    let l := calls.foldl Recency.after []
    r.victim? = l.victim? ∧
    (∀ order, order.Perm r.visits.toList → r.victimIn? order = l.victim?) ∧
    r.evictable = l.size ∧
    (∀ c, if r.lowers c then (r.after c).evictable + 1 = r.evictable
      else c = .clear ∨ r.evictable ≤ (r.after c).evictable) ∧
    r.clock = calls.countP ReplacerCall.isVisit := by
  intro r l
  have h : r.Ranks l := ranks_empty.foldl_after calls
  have hvictim : ∀ order, order.Perm r.visits.toList → r.victimIn? order = l.victim? := by
    intro order horder
    unfold victimIn?
    split
    · rename_i hzero
      rw [h.evictable_eq_size, Recency.size, List.countP_eq_zero] at hzero
      rw [Recency.victim?, List.find?_eq_none.2 hzero]
      rfl
    · exact h.oldest?_eq horder
  refine ⟨hvictim _ (.refl _), hvictim, h.evictable_eq_size, fun c => ?_, ?_⟩
  · split
    · rename_i hlowers
      exact h.stamped.evictable_after_of_lowers hlowers
    · rename_i hlowers
      exact evictable_le_after (Bool.eq_false_iff.2 hlowers)
  · exact (clock_foldl_after calls {}).trans (Nat.zero_add _)

/-- Page 2 keeps its place while it may not be evicted; page 3 loses its own by being removed. -/
theorem answers_as_recency_repinned :
    let calls : List ReplacerCall :=
      [.visit 1, .visit 2, .visit 3, .setEvictable 2 false, .remove 3, .visit 1, .visit 3,
        .setEvictable 2 true]
    let r := calls.foldl Replacer.after {}
    calls.foldl Recency.after [] = [(2, true), (1, true), (3, true)] ∧
      r.victimIn? r.visits.toList.reverse = some 2 := by
  intro calls r
  have hlist : calls.foldl Recency.after [] = [(2, true), (1, true), (3, true)] := by decide
  refine ⟨hlist, ?_⟩
  rw [(answers_as_recency calls).2.1 _ (List.reverse_perm _), hlist]
  rfl

end Replacer

end PageDb
