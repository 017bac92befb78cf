import PageDb.Proofs.Query.Equijoin

/-!
The pairs that two walks in step give out.

Where different keys of both tables stay apart, finding each other is the same as being equal in the
order of the entries, so the walks give out every pair of equal keys.
-/

namespace PageDb

namespace Entry

variable {t u : ColumnType} {a b c : Entry}

/-- Columns of one type keep their values apart, and so do two columns of integers. -/
theorem strict_of_alike (h : t = u ∨ t.isIntegral = true ∧ u.isIntegral = true) :
    Strict t u ∧ Strict u t := by
  rcases h with rfl | ⟨ht, hu⟩
  · cases t <;> simp [Strict, ColumnType.isIntegral]
  · exact ⟨.inr hu, .inr ht⟩

/-- Entries that are the same compare alike with a column whose values stay apart. -/
theorem compare_congr_of_strict (hstrict : Strict u t) (ha : a.fits t) (hb : b.fits u)
    (hc : c.fits u) (hab : Ord.compare a b = .eq) : Ord.compare a c = Ord.compare b c := by
  rw [compare_eq_meeting ha hb, Place.order_eq_iff] at hab
  rw [compare_eq_meeting ha hc, hab, meetingPlace_comm t u b, meetingPlace_comm t u c,
    meeting_of_strict hstrict hb hc]

end Entry

namespace Merge

open SortedMap (AscendingList)

variable {t u : ColumnType} {left right : List (Entry × Row)} {b c : Entry × Row} {k k' : Entry}

/-- A key finds the binding whose key is the same, also that of another column. -/
theorem find?_eq_some_iff_of_strict (hstrict : Entry.Strict u t) (hk : k.fits t)
    (hr : AscendingList (Entry.fits u) right) :
    SortedMap.find? k right = some c ↔ c ∈ right ∧ Ord.compare k c.1 = .eq := by
  refine ⟨SortedMap.mem_of_find?, fun ⟨hc, heq⟩ => ?_⟩
  have hc₁ : c.1.fits u := hr.holds c hc
  have halike : ∀ d ∈ right, Ord.compare k d.1 = Ord.compare c.1 d.1 := fun d hd =>
    Entry.compare_congr_of_strict hstrict hk hc₁ (hr.holds d hd) heq
  rw [SortedMap.find?_congr halike, SortedMap.find?_eq_some_iff (Entry.orderedOn_fits u) hc₁ hr]
  exact ⟨hc, (Entry.orderedOn_fits u).refl hc₁⟩

/-- Bindings whose keys are the same find each other, and no others do. -/
theorem mutual_iff (htypes : t = u ∨ t.isIntegral = true ∧ u.isIntegral = true)
    (hl : AscendingList (Entry.fits t) left) (hr : AscendingList (Entry.fits u) right) :
    Mutual left right b c ↔ b ∈ left ∧ c ∈ right ∧ Ord.compare b.1 c.1 = .eq := by
  obtain ⟨hstrict, hstrict'⟩ := Entry.strict_of_alike htypes
  constructor
  · intro h
    exact ⟨h.mem.1, h.mem.2, (SortedMap.mem_of_find? h.1).2⟩
  · rintro ⟨hb, hc, heq⟩
    have hb₁ : b.1.fits t := hl.holds b hb
    have hc₁ : c.1.fits u := hr.holds c hc
    have heq' : Ord.compare c.1 b.1 = .eq := by rw [Entry.compare_swap hc₁ hb₁, heq]; rfl
    exact ⟨(find?_eq_some_iff_of_strict hstrict' hb₁ hr).2 ⟨hc, heq⟩,
      (find?_eq_some_iff_of_strict hstrict hc₁ hl).2 ⟨hb, heq'⟩⟩

/-- The walks meet at the pairs of equal keys. -/
theorem mem_metKeys_iff (htypes : t = u ∨ t.isIntegral = true ∧ u.isIntegral = true)
    (hl : AscendingList (Entry.fits t) left) (hr : AscendingList (Entry.fits u) right) :
    (k, k') ∈ metKeys left right ↔
      k ∈ left.map Prod.fst ∧ k' ∈ right.map Prod.fst ∧ Ord.compare k k' = .eq := by
  constructor
  · intro h
    obtain ⟨⟨b, c⟩, hpair, ⟨⟩⟩ := List.mem_map.1 h
    obtain ⟨hb, hc, heq⟩ := (mutual_iff htypes hl hr).1 ((mem_pairUp hl hr).1 hpair)
    exact ⟨List.mem_map_of_mem hb, List.mem_map_of_mem hc, heq⟩
  · rintro ⟨hk, hk', heq⟩
    obtain ⟨b, hb, rfl⟩ := List.mem_map.1 hk
    obtain ⟨c, hc, rfl⟩ := List.mem_map.1 hk'
    exact List.mem_map.2 ⟨(b, c), (mem_pairUp hl hr).2 ((mutual_iff htypes hl hr).2 ⟨hb, hc, heq⟩), rfl⟩

/-- The walks meet at ever greater keys of both tables. -/
theorem pairwise_metKeys (hl : AscendingList (Entry.fits t) left)
    (hr : AscendingList (Entry.fits u) right) :
    (metKeys left right).Pairwise fun p q =>
      Ord.compare p.1 q.1 = .lt ∧ Ord.compare p.2 q.2 = .lt := by
  have hfirst := hl.increasing.sublist (pairUp_sublist left right)
  have hsecond := hr.increasing.sublist (pairUp_sublist_right left right)
  rw [List.pairwise_map] at hfirst hsecond
  exact List.pairwise_map.2 (hfirst.and hsecond)

section Run

variable {tables : List Table} {rows : Table → SortedMap Entry Row} {s : Tablespace} {t u : Table}

/-- Two walks in step that have yet to give out some pairs. -/
def Due (tables : List Table) (rows : Table → SortedMap Entry Row) (t u : Table)
    (pairs : List (Result (Entry × Entry))) (now : Merge × Tablespace) : Prop :=
  Tablespace.Holds tables rows now.2 ∧ ∃ left right, now.1.Ahead rows t u left right ∧
    pairs = (metKeys left right).map .ok

/-- One call gives out the first pair that is due. -/
theorem Due.nextPair_run (ht : t ∈ tables) (hu : u ∈ tables) {pairs : List (Result (Entry × Entry))}
    {now : Merge × Tablespace} (h : Due tables rows t u pairs now) :
    ((∃ pair, Finds now pair (nextPair.run now).2 ∧ (nextPair.run now).1 = .ok pair) ∧
      (nextPair.run now).1 = Moving.answer pairs.head?) ∧
      Due tables rows t u pairs.tail (nextPair.run now).2 := by
  obtain ⟨m, s⟩ := now
  obtain ⟨hholds, left, right, hahead, rfl⟩ := h
  obtain ⟨m', more, more', hrun, hfinds, hahead', hmore⟩ := Merge.nextPair_run hholds ht hu hahead
  rw [hrun]
  refine ⟨⟨⟨_, hfinds, rfl⟩, ?_⟩, hholds, more, more', hahead', ?_⟩
  · cases metKeys left right <;> rfl
  · rw [metKeys, metKeys, hmore, List.map_tail, List.map_tail]

theorem Due.spared {pairs : List (Result (Entry × Entry))} {work : Tablespace → Tablespace}
    (hwork : Tablespace.Spares tables rows work) {m : Merge}
    (h : Due tables rows t u pairs (m, s)) : Due tables rows t u pairs (m, work s) :=
  ⟨hwork s h.1, h.2⟩

end Run

/-- Two walks in step through tables whose keys are of one type, or are integers, give out exactly
the pairs of equal keys, each once and in ascending order, and then nothing.  Every search for a pair
comes to an end by itself. -/
theorem drains_nextPair {t u : Table} {rows : Table → SortedMap Entry Row} {s : Tablespace}
    (h : Tablespace.Holds [t, u] rows s)
    (htypes : t.keyType = u.keyType ∨ t.keyType.isIntegral = true ∧ u.keyType.isIntegral = true) :
    ∃ pairs : List (Entry × Entry),
      Moving.Drains nextPair [t, u] rows (⟨t.walk, u.walk⟩, s) (pairs.map .ok) ∧
      (∀ k k', (k, k') ∈ pairs ↔
        k ∈ (rows t).keys ∧ k' ∈ (rows u).keys ∧ Ord.compare k k' = .eq) ∧
      (pairs.Pairwise fun p q => Ord.compare p.1 q.1 = .lt ∧ Ord.compare p.2 q.2 = .lt) ∧
      ∀ works : List (Tablespace → Tablespace),
        (∀ work ∈ works, Tablespace.Spares [t, u] rows work) →
          let now := Moving.reached nextPair works (⟨t.walk, u.walk⟩, s)
          ∃ pair, Finds now pair (nextPair.run now).2 ∧ (nextPair.run now).1 = .ok pair := by
  have ht : t ∈ [t, u] := by simp
  have hu : u ∈ [t, u] := by simp
  have hl := h.ascending ht
  have hr := h.ascending hu
  have hdue : Due [t, u] rows t u ((metKeys (rows t).toList (rows u).toList).map .ok)
      (⟨t.walk, u.walk⟩, s) :=
    ⟨h, _, _, ⟨rfl, rfl, Walk.ahead_walk t _, Walk.ahead_walk u _⟩, rfl⟩
  have hcall (pairs : List (Result (Entry × Entry))) (now : Merge × Tablespace)
      (hnow : Due [t, u] rows t u pairs now) := hnow.nextPair_run ht hu
  refine ⟨metKeys (rows t).toList (rows u).toList, ?_, fun k k' => mem_metKeys_iff htypes hl hr,
    pairwise_metKeys hl hr, fun works hworks => ?_⟩
  · refine Moving.drains_of_call (fun pairs now hnow => ?_)
      (fun work hwork pairs m s hnow => hnow.spared hwork) hdue
    exact ⟨(hcall pairs now hnow).1.2, (hcall pairs now hnow).2⟩
  · have hreached := Moving.reached_induction (fun pairs now hnow => (hcall pairs now hnow).2)
      (fun work hwork pairs m s hnow => hnow.spared hwork) hworks hdue
    exact (hcall _ _ hreached).1.1

/-- A table of four-byte keys and one of eight-byte keys. -/
def mixedTables : List Table := [keyTable 1 "u" "x" .int, keyTable 2 "v" "y" .long]

/-- The two tables with some keys. -/
def mixedSpace : Tablespace :=
  Table.runAll
    [(keyTable 1 "u" "x" .int, .insertLiterals none ["3"] false),
      (keyTable 1 "u" "x" .int, .insertLiterals none ["2"] false),
      (keyTable 2 "v" "y" .long, .insertLiterals none ["2"] false),
      (keyTable 2 "v" "y" .long, .insertLiterals none ["4"] false)]
    (mixedTables.foldr (fun t s => s.create {} t) {})

theorem orderly_mixed : Tablespace.Orderly mixedTables mixedSpace :=
  (orderly_keyTables .int .long).runAll (by simp [TableCall.Typed])

/-- The pair of twos is given out, and no pair with a three. -/
theorem drains_nextPair_mixed :
    ∃ pairs : List (Entry × Entry),
      Moving.Drains nextPair mixedTables (fun t => t.contents mixedSpace)
        (⟨(keyTable 1 "u" "x" .int).walk, (keyTable 2 "v" "y" .long).walk⟩, mixedSpace)
        (pairs.map .ok) ∧
      (.int 2, .long 2) ∈ pairs ∧ ∀ k, (.int 3, k) ∉ pairs := by
  obtain ⟨pairs, hdrains, hmem, -, -⟩ := drains_nextPair orderly_mixed.holds (.inr ⟨rfl, rfl⟩)
  refine ⟨pairs, hdrains, (hmem _ _).2 (by decide +kernel), fun k hk => ?_⟩
  obtain ⟨-, hk, heq⟩ := (hmem _ _).1 hk
  have hnone : ∀ k ∈ ((keyTable 2 "v" "y" .long).contents mixedSpace).keys,
      Ord.compare (.int 3) k ≠ .eq := by decide +kernel
  exact hnone k hk heq

end Merge

end PageDb
