import PageDb.Proofs.CrossOrder
import PageDb.Proofs.Query.Merging

/-!
Which pairs two walks in step meet.

Among entries of two columns the same key is no equivalence, since a rounded number may be the same
as several integers.  The pairs that are met are those of bindings that find each other.
-/

namespace PageDb

namespace Merge

open SortedMap (AscendingList)

variable {t u : ColumnType} {left right : List (Entry × Row)} {b c l r : Entry × Row}

/-- A binding that comes after the first one is looked for in the rest. -/
theorem find?_cons_iff (hl : AscendingList (Entry.fits t) (l :: left)) (hb : b ∈ left) (k : Entry) :
    SortedMap.find? k (l :: left) = some b ↔
      Ord.compare k l.1 = .gt ∧ SortedMap.find? k left = some b := by
  have hne : l ≠ b := by
    rintro rfl
    have hlt := List.rel_of_pairwise_cons hl.increasing hb
    rw [(Entry.orderedOn_fits t).refl (hl.holds _ (by simp))] at hlt
    cases hlt
  cases hcompare : Ord.compare k l.1 with
  | lt => simp [SortedMap.find?, hcompare]
  | eq => simpa [SortedMap.find?, hcompare] using hne
  | gt => simp [SortedMap.find?, hcompare]

/-- Two bindings find each other. -/
def Mutual (left right : List (Entry × Row)) (b c : Entry × Row) : Prop :=
  SortedMap.find? b.1 right = some c ∧ SortedMap.find? c.1 left = some b

theorem mutual_comm : Mutual left right b c ↔ Mutual right left c b := and_comm

theorem Mutual.mem (h : Mutual left right b c) : b ∈ left ∧ c ∈ right :=
  ⟨(SortedMap.mem_of_find? h.2).1, (SortedMap.mem_of_find? h.1).1⟩

/-- Passing over a smaller first binding keeps which bindings find each other. -/
theorem mutual_skip (hl : AscendingList (Entry.fits t) (l :: left))
    (hr : AscendingList (Entry.fits u) (r :: right)) (hlt : Ord.compare l.1 r.1 = .lt) :
    Mutual (l :: left) (r :: right) b c ↔ Mutual left (r :: right) b c := by
  have hl₁ : l.1.fits t := hl.holds l (by simp)
  have hgt : c ∈ r :: right → Ord.compare c.1 l.1 = .gt := by
    intro hc
    have hr₁ : r.1.fits u := hr.holds r (by simp)
    rcases List.mem_cons.1 hc with rfl | hc
    · rw [Entry.compare_swap hr₁ hl₁, hlt]
      rfl
    · have hrc := List.rel_of_pairwise_cons hr.increasing hc
      exact Entry.compare_gt_of_lt hl₁ hr₁ (hr.holds c (by simp [hc])) hlt hrc
  constructor
  · intro h
    refine ⟨h.1, ?_⟩
    have hfound := h.2
    simpa [SortedMap.find?, hgt h.mem.2] using hfound
  · intro h
    refine ⟨h.1, ?_⟩
    simpa [SortedMap.find?, hgt h.mem.2] using h.2

/-- First bindings that are the same find each other, and the others find each other in the rest. -/
theorem mutual_both (hl : AscendingList (Entry.fits t) (l :: left))
    (hr : AscendingList (Entry.fits u) (r :: right)) (heq : Ord.compare l.1 r.1 = .eq) :
    Mutual (l :: left) (r :: right) b c ↔ b = l ∧ c = r ∨ Mutual left right b c := by
  have hl₁ : l.1.fits t := hl.holds l (by simp)
  have hr₁ : r.1.fits u := hr.holds r (by simp)
  have heq' : Ord.compare r.1 l.1 = .eq := by rw [Entry.compare_swap hr₁ hl₁, heq]; rfl
  have hfindl : SortedMap.find? l.1 (r :: right) = some r := by simp [SortedMap.find?, heq]
  have hfindr : SortedMap.find? r.1 (l :: left) = some l := by simp [SortedMap.find?, heq']
  constructor
  · intro h
    rcases List.mem_cons.1 h.mem.1 with rfl | hb
    · exact .inl ⟨rfl, Option.some.inj (h.1.symm.trans hfindl)⟩
    rcases List.mem_cons.1 h.mem.2 with rfl | hc
    · exact .inl ⟨Option.some.inj (h.2.symm.trans hfindr), rfl⟩
    exact .inr ⟨((find?_cons_iff hr hc _).1 h.1).2, ((find?_cons_iff hl hb _).1 h.2).2⟩
  · rintro (⟨rfl, rfl⟩ | h)
    · exact ⟨hfindl, hfindr⟩
    · obtain ⟨hb, hc⟩ := h.mem
      have hb₁ : b.1.fits t := hl.holds b (by simp [hb])
      have hc₁ : c.1.fits u := hr.holds c (by simp [hc])
      have hlb := List.rel_of_pairwise_cons hl.increasing hb
      have hrc := List.rel_of_pairwise_cons hr.increasing hc
      have hbc := (SortedMap.mem_of_find? h.1).2
      have hcb := (SortedMap.mem_of_find? h.2).2
      refine ⟨(find?_cons_iff hr hc _).2 ⟨?_, h.1⟩, (find?_cons_iff hl hb _).2 ⟨?_, h.2⟩⟩
      · exact Entry.compare_gt_of_eq hl₁ hb₁ hr₁ hc₁ heq hbc hlb hrc
      · exact Entry.compare_gt_of_eq hr₁ hc₁ hl₁ hb₁ heq' hcb hrc hlb

/-- Two walks in step meet the bindings that find each other. -/
theorem mem_pairUp (hl : AscendingList (Entry.fits t) left)
    (hr : AscendingList (Entry.fits u) right) :
    (b, c) ∈ pairUp left right ↔ Mutual left right b c := by
  fun_induction pairUp left right with
  | case1 right => simp [Mutual, SortedMap.find?]
  | case2 l left => simp [Mutual, SortedMap.find?]
  | case3 l left r right heq ih =>
    rw [mutual_both hl hr heq, List.mem_cons, Prod.mk.injEq, ih hl.tail hr.tail]
  | case4 l left r right hlt ih =>
    rw [mutual_skip hl hr hlt, ih hl.tail hr]
  | case5 l left r right hgt ih =>
    have hlt : Ord.compare r.1 l.1 = .lt := by
      rw [Entry.compare_swap (hr.holds r (by simp)) (hl.holds l (by simp))]
      exact congrArg Ordering.swap hgt
    rw [ih hl hr.tail, mutual_comm, ← mutual_skip hr hl hlt, mutual_comm]

end Merge

end PageDb
