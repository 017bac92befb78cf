import PageDb.Proofs.CrossOrder

/-!
The order of entries of all types together.

Integers compare exactly and everything else after rounding, and rounding keeps the order of integers
without keeping them apart.  So comparison is an order up to one thing: a number that is no integer is
equal to all integers that round to it, which are not equal to each other.  Such a number `Blurs` them;
where none does, comparison is an order.
-/

namespace PageDb

namespace Entry

/-- Whether two different integers round to a number that is no integer. -/
def Blurs (b a c : Entry) : Prop :=
  b.integer? = none ∧ (∃ i j, a.integer? = some i ∧ c.integer? = some j ∧ i ≠ j) ∧
    a.roundedPlace = b.roundedPlace ∧ b.roundedPlace = c.roundedPlace

variable {a b c : Entry} {i j : Int}

theorem Blurs.symm (h : b.Blurs a c) : b.Blurs c a := by
  obtain ⟨hb, ⟨i, j, hi, hj, hne⟩, hab, hbc⟩ := h
  exact ⟨hb, ⟨j, i, hj, hi, hne.symm⟩, hbc.symm, hab.symm⟩

/-! ## Comparing exactly and after rounding -/

theorem compare_integers (ha : a.integer? = some i) (hb : b.integer? = some j) :
    Ord.compare a b = Ord.compare i j := by
  cases a <;> cases ha <;> cases b <;> cases hb <;> rfl

theorem compare_rounded (h : a.integer? = none ∨ b.integer? = none) :
    Ord.compare a b = a.roundedPlace.order b.roundedPlace := by
  cases a <;> cases b <;> first | rfl | (exfalso; simp [integer?] at h)

theorem roundedPlace_integer (ha : a.integer? = some i) :
    a.roundedPlace = .number (Binary.ofInt .double i).key := by
  cases a <;> cases ha <;> rfl

/-- Integers do not change places when they are rounded. -/
theorem rounded_isLE_of_le (ha : a.integer? = some i) (hb : b.integer? = some j) (h : i ≤ j) :
    (a.roundedPlace.order b.roundedPlace).isLE = true := by
  rw [roundedPlace_integer ha, roundedPlace_integer hb]
  exact Int.isLE_compare.2 (Binary.key_ofInt_le h)

/-- What lies below or beside an entry does so after rounding. -/
theorem rounded_isLE (h : (Ord.compare a b).isLE = true) :
    (a.roundedPlace.order b.roundedPlace).isLE = true := by
  cases ha : a.integer? with
  | none => rwa [← compare_rounded (.inl ha)]
  | some i =>
    cases hb : b.integer? with
    | none => rwa [← compare_rounded (.inr hb)]
    | some j =>
      rw [compare_integers ha hb] at h
      exact rounded_isLE_of_le ha hb (Int.isLE_compare.1 h)

/-! ## The laws of an order -/

/-- Comparing the other way round gives the other answer. -/
theorem compare_eq_swap (a b : Entry) : Ord.compare b a = (Ord.compare a b).swap := by
  cases ha : a.integer? with
  | none =>
    rw [compare_rounded (.inl ha), compare_rounded (.inr ha)]
    exact Std.OrientedCmp.eq_swap
  | some i =>
    cases hb : b.integer? with
    | none =>
      rw [compare_rounded (.inl hb), compare_rounded (.inr hb)]
      exact Std.OrientedCmp.eq_swap
    | some j =>
      rw [compare_integers ha hb, compare_integers hb ha]
      exact Std.OrientedOrd.eq_swap

/-- Null lies below all numbers, and numbers below all texts. -/
theorem compare_of_rank_lt (h : a.rank < b.rank) : Ord.compare a b = .lt := by
  cases a <;> cases b <;> first | rfl | (exfalso; simp [rank] at h)

/-- A number that blurs two integers is equal to both. -/
theorem Blurs.compare_eq (h : b.Blurs a c) :
    Ord.compare a b = .eq ∧ Ord.compare b c = .eq ∧ Ord.compare a c ≠ .eq := by
  obtain ⟨hb, ⟨i, j, hi, hj, hne⟩, hab, hbc⟩ := h
  rw [compare_rounded (.inr hb), compare_rounded (.inl hb), compare_integers hi hj]
  exact ⟨Place.order_eq_iff.2 hab, Place.order_eq_iff.2 hbc,
    fun heq => hne (Int.compare_eq_eq.1 heq)⟩

/-- Of two integers with a number between them that is none, the second is not below the first, or the
number blurs them. -/
theorem blurs_or_compare (hi : a.integer? = some i) (hj : c.integer? = some j)
    (hb : b.integer? = none) (hab : (Ord.compare a b).isLE = true)
    (hbc : (Ord.compare b c).isLE = true) :
    b.Blurs a c ∨ (Ord.compare a c).isLE = true := by
  rcases Int.lt_or_le j i with hgt | hle
  · -- the larger integer rounds to nothing lower, so all three round to one place
    have hca := rounded_isLE_of_le hj hi (Int.le_of_lt hgt)
    have hab' := rounded_isLE hab
    have hbc' := rounded_isLE hbc
    have hplaces : a.roundedPlace = b.roundedPlace :=
      Place.order_eq_iff.1 (Std.OrientedCmp.isLE_antisymm hab' (Std.TransCmp.isLE_trans hbc' hca))
    have hplaces' : b.roundedPlace = c.roundedPlace :=
      Place.order_eq_iff.1 (Std.OrientedCmp.isLE_antisymm hbc' (Std.TransCmp.isLE_trans hca hab'))
    exact .inl ⟨hb, ⟨i, j, hi, hj, (Int.ne_of_lt hgt).symm⟩, hplaces, hplaces'⟩
  · rw [compare_integers hi hj]
    exact .inr (Int.isLE_compare.2 hle)

/-- Comparison is transitive, except around a number that blurs two integers. -/
theorem compare_isLE_trans (hblur : ¬ b.Blurs a c) (hab : (Ord.compare a b).isLE = true)
    (hbc : (Ord.compare b c).isLE = true) : (Ord.compare a c).isLE = true := by
  have hplaces : (a.roundedPlace.order c.roundedPlace).isLE = true :=
    Std.TransCmp.isLE_trans (rounded_isLE hab) (rounded_isLE hbc)
  cases ha : a.integer? with
  | none => rwa [compare_rounded (.inl ha)]
  | some i =>
    cases hc : c.integer? with
    | none => rwa [compare_rounded (.inr hc)]
    | some j =>
      cases hb : b.integer? with
      | none => exact (blurs_or_compare ha hc hb hab hbc).resolve_left hblur
      | some k =>
        rw [compare_integers ha hb] at hab
        rw [compare_integers hb hc] at hbc
        rw [compare_integers ha hc]
        exact Std.TransOrd.isLE_trans hab hbc

/-- Entries that are equal compare alike with a third one, exactly if neither of them blurs the other
and the third. -/
theorem compare_congr_iff (hab : Ord.compare a b = .eq) :
    Ord.compare a c = Ord.compare b c ↔ ¬ b.Blurs a c ∧ ¬ a.Blurs b c := by
  have hba : Ord.compare b a = .eq := by rw [compare_eq_swap, hab]; rfl
  constructor
  · intro hsame
    refine ⟨fun hblur => ?_, fun hblur => ?_⟩
    · obtain ⟨-, hbc, hac⟩ := hblur.compare_eq
      exact hac (hsame.trans hbc)
    · obtain ⟨-, hac, hbc⟩ := hblur.compare_eq
      exact hbc (hsame.symm.trans hac)
  · rintro ⟨hb, ha⟩
    -- the third lies as much above the one as above the other, and as much below
    have habove : (Ord.compare a c).isLE = true ↔ (Ord.compare b c).isLE = true :=
      ⟨compare_isLE_trans ha (by rw [hba]; rfl), compare_isLE_trans hb (by rw [hab]; rfl)⟩
    have hbelow : (Ord.compare c a).isLE = true ↔ (Ord.compare c b).isLE = true :=
      ⟨fun h => compare_isLE_trans (mt Blurs.symm ha) h (by rw [hab]; rfl),
        fun h => compare_isLE_trans (mt Blurs.symm hb) h (by rw [hba]; rfl)⟩
    rw [compare_eq_swap a c, compare_eq_swap b c] at hbelow
    revert habove hbelow
    cases Ord.compare a c <;> cases Ord.compare b c <;> decide

/-- Comparison is an order up to numbers that blur integers: it can be turned round, follows the sort
classes, is transitive and respects equal entries, except where a number is equal to two integers
that are not equal. -/
theorem compare_laws (a b c : Entry) :
    Ord.compare b a = (Ord.compare a b).swap ∧
      (a.rank < b.rank → Ord.compare a b = .lt) ∧
      (¬ b.Blurs a c → (Ord.compare a b).isLE = true → (Ord.compare b c).isLE = true →
        (Ord.compare a c).isLE = true) ∧
      (Ord.compare a b = .eq →
        (Ord.compare a c = Ord.compare b c ↔ ¬ b.Blurs a c ∧ ¬ a.Blurs b c)) ∧
      (b.Blurs a c →
        Ord.compare a b = .eq ∧ Ord.compare b c = .eq ∧ Ord.compare a c ≠ .eq) :=
  ⟨compare_eq_swap a b, compare_of_rank_lt, compare_isLE_trans, compare_congr_iff,
    Blurs.compare_eq⟩

/-- Two eight-byte integers next to each other are equal to the number both round to. -/
theorem compare_not_trans :
    Ord.compare (long 9007199254740992) (double ⟨0x4340000000000000#64⟩) = .eq ∧
      Ord.compare (double ⟨0x4340000000000000#64⟩) (long 9007199254740993) = .eq ∧
      Ord.compare (long 9007199254740992) (long 9007199254740993) = .lt := by
  decide +kernel

/-! ## Where comparison is an order -/

/-- Comparison is an order on a class of entries exactly if no number of the class blurs two others. -/
theorem orderedOn_iff {P : Entry → Prop} :
    SortedMap.OrderedOn P ↔ ∀ a b c, P a → P b → P c → ¬ b.Blurs a c := by
  constructor
  · intro hordered a b c ha hb hc hblur
    obtain ⟨hab, hbc, hac⟩ := hblur.compare_eq
    exact hac ((hordered.congr_left ha hb hc hab).trans hbc)
  · intro hclear
    exact {
      eq_swap := fun {a b} => compare_eq_swap b.1 a.1
      isLE_trans := fun {a b c} => compare_isLE_trans (hclear a.1 b.1 c.1 a.2 b.2 c.2) }

/-- Integers whose amount is below 2^53 round to different places. -/
theorem integer_eq_of_rounded (ha : a.integer? = some i) (hb : b.integer? = some j)
    (hi : i.natAbs < 2 ^ 53) (hj : j.natAbs < 2 ^ 53) (h : a.roundedPlace = b.roundedPlace) :
    i = j := by
  rw [roundedPlace_integer ha, roundedPlace_integer hb, Place.number.injEq] at h
  rcases Int.lt_trichotomy i j with hlt | heq | hgt
  · exact absurd h (Int.ne_of_lt (Binary.key_ofInt_lt hlt hi hj))
  · exact heq
  · exact absurd h.symm (Int.ne_of_lt (Binary.key_ofInt_lt hgt hj hi))

/-- Comparison is an order on the entries other than integers of an amount of 2^53 and more. -/
theorem orderedOn_exact :
    SortedMap.OrderedOn fun e : Entry => ∀ i, e.integer? = some i → i.natAbs < 2 ^ 53 := by
  refine orderedOn_iff.2 ?_
  rintro a b c ha - hc ⟨-, ⟨i, j, hi, hj, hne⟩, hab, hbc⟩
  exact hne (integer_eq_of_rounded hi hj (ha i hi) (hc j hj) (hab.trans hbc))

end Entry

end PageDb
