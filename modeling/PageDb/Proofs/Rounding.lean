import PageDb.Number.Binary
import Mathlib.Algebra.Ring.Nat

/-!
Integers as eight-byte numbers.

Rounding keeps the order of integers.  It keeps integers below `2 ^ 53` apart, but beyond it brings
neighbours together.
-/

namespace PageDb

namespace Format

/-- Rounding a quotient keeps the order of numerators. -/
theorem divideToEven_le (den : Nat) {num num' : Nat} (h : num ≤ num') :
    divideToEven num den ≤ divideToEven num' den := by
  have hquotient : num / den ≤ num' / den := Nat.div_le_div_right h
  rcases Nat.lt_or_eq_of_le hquotient with hlt | heq
  · simp only [divideToEven]
    split <;> split <;> omega
  · have hrest : num % den ≤ num' % den := by
      have hnum := Nat.div_add_mod num den
      have hnum' := Nat.div_add_mod num' den
      rw [heq] at hnum
      omega
    simp only [divideToEven, heq]
    split <;> split <;> omega

theorem divideToEven_one (num : Nat) : divideToEven num 1 = num := by
  simp [divideToEven, Nat.mod_one]

/-- A rounded quotient lies between the bounds of the quotient. -/
theorem divideToEven_bounds {num den lo hi : Nat} (hden : 0 < den) (hlo : lo * den ≤ num)
    (hhi : num < hi * den) : lo ≤ divideToEven num den ∧ divideToEven num den ≤ hi := by
  have hlow : lo ≤ num / den := (Nat.le_div_iff_mul_le hden).2 hlo
  have hhigh : num / den < hi := (Nat.div_lt_iff_lt_mul hden).2 hhi
  simp only [divideToEven]
  split <;> omega

/-- The significand of a positive integer, scaled to 53 bits. -/
def significand (n : Nat) : Nat :=
  if 52 ≤ n.log2 then divideToEven n (2 ^ (n.log2 - 52)) else n * 2 ^ (52 - n.log2)

theorem floorLog_one {n : Nat} (h : n ≠ 0) : floorLog n 1 = n.log2 := by
  have hle : 2 ^ n.log2 ≤ n := Nat.log2_self_le h
  have hlog : Nat.log2 1 = 0 := by decide
  simp [floorLog, rescale, hlog]
  omega

theorem rescale_eq_significand (n : Nat) :
    divideToEven (rescale n 1 (n.log2 - 52)).1 (rescale n 1 (n.log2 - 52)).2 = significand n := by
  simp only [significand, rescale]
  by_cases hlog : 52 ≤ n.log2
  · have hexponent : ((n.log2 : Int) - 52).toNat = n.log2 - 52 := by omega
    rw [if_pos (by omega), if_pos hlog]
    simp only [hexponent, Nat.one_mul, Nat.pow_eq]
  · have hexponent : (-((n.log2 : Int) - 52)).toNat = 52 - n.log2 := by omega
    rw [if_neg (by omega), if_neg hlog]
    simp only [hexponent, divideToEven_one, Nat.pow_eq]

/-- The word of a positive integer: its exponent field counts from the logarithm. -/
theorem nearest_eq {n : Nat} (h : n ≠ 0) :
    double.nearest n 1 = min double.infinity ((n.log2 + 1022) * 2 ^ 52 + significand n) := by
  have hmin : double.minExponent = -1074 := by decide
  have hunit : max (floorLog n 1 - double.fractionBits) double.minExponent =
      (n.log2 : Int) - 52 := by
    rw [floorLog_one h, hmin, show double.fractionBits = 52 from rfl]
    omega
  have hfield : ((n.log2 : Int) - 52 - double.minExponent).toNat = n.log2 + 1022 := by
    rw [hmin]
    omega
  unfold nearest
  rw [if_neg h, hunit]
  simp only
  rw [hfield, rescale_eq_significand]
  rfl

/-- An integer of at most 53 bits, shifted so that it has 53 of them. -/
theorem scaled_bounds {n : Nat} (h : n ≠ 0) (hlog : n.log2 ≤ 52) :
    2 ^ 52 ≤ n * 2 ^ (52 - n.log2) ∧ n * 2 ^ (52 - n.log2) < 2 ^ 53 := by
  constructor
  · calc 2 ^ 52 = 2 ^ n.log2 * 2 ^ (52 - n.log2) := by rw [← Nat.pow_add]; congr 1; omega
      _ ≤ n * 2 ^ (52 - n.log2) := Nat.mul_le_mul_right _ (Nat.log2_self_le h)
  · calc n * 2 ^ (52 - n.log2) < 2 ^ (n.log2 + 1) * 2 ^ (52 - n.log2) :=
          Nat.mul_lt_mul_of_pos_right Nat.lt_log2_self (Nat.two_pow_pos _)
      _ = 2 ^ 53 := by rw [← Nat.pow_add]; congr 1; omega

/-- A significand has 53 bits, or is rounded up to the next power of two. -/
theorem significand_bounds {n : Nat} (h : n ≠ 0) :
    2 ^ 52 ≤ significand n ∧ significand n ≤ 2 ^ 53 := by
  have hle : 2 ^ n.log2 ≤ n := Nat.log2_self_le h
  have hlt : n < 2 ^ (n.log2 + 1) := Nat.lt_log2_self
  unfold significand
  split
  · rename_i hlog
    refine divideToEven_bounds (Nat.two_pow_pos _) ?_ ?_
    · rwa [← Nat.pow_add, show 52 + (n.log2 - 52) = n.log2 by omega]
    · rwa [← Nat.pow_add, show 53 + (n.log2 - 52) = n.log2 + 1 by omega]
  · rename_i hlog
    obtain ⟨hlow, hhigh⟩ := scaled_bounds h (by omega)
    exact ⟨hlow, Nat.le_of_lt hhigh⟩

theorem log2_mono {n m : Nat} (hn : n ≠ 0) (h : n ≤ m) : n.log2 ≤ m.log2 :=
  (Nat.le_log2 (by omega)).2 (Nat.le_trans (Nat.log2_self_le hn) h)

/-- Rounding keeps the order of natural numbers. -/
theorem nearest_le {n m : Nat} (h : n ≤ m) : double.nearest n 1 ≤ double.nearest m 1 := by
  by_cases hn : n = 0
  · subst hn
    exact Nat.zero_le _
  have hm : m ≠ 0 := by omega
  rw [nearest_eq hn, nearest_eq hm]
  have hlog := log2_mono hn h
  have hle : (n.log2 + 1022) * 2 ^ 52 + significand n ≤ (m.log2 + 1022) * 2 ^ 52 + significand m := by
    rcases Nat.lt_or_eq_of_le hlog with hlt | heq
    · have := (significand_bounds hn).2
      have := (significand_bounds hm).1
      omega
    · have hsignificand : significand n ≤ significand m := by
        simp only [significand, heq]
        split
        · exact divideToEven_le _ h
        · exact Nat.mul_le_mul_right _ h
      omega
  omega

/-- The significand of an integer below `2 ^ 53` is exact. -/
theorem significand_eq {n : Nat} (hn : n ≠ 0) (h : n < 2 ^ 53) :
    significand n = n * 2 ^ (52 - n.log2) := by
  have hlog : n.log2 < 53 := (Nat.log2_lt hn).2 h
  unfold significand
  split
  · rw [show n.log2 - 52 = 0 by omega, show 52 - n.log2 = 0 by omega, Nat.pow_zero, Nat.mul_one]
    exact divideToEven_one n
  · rfl

/-- Natural numbers below `2 ^ 53` are kept apart. -/
theorem nearest_lt {n m : Nat} (h : n < m) (hm : m < 2 ^ 53) :
    double.nearest n 1 < double.nearest m 1 := by
  have hm₀ : m ≠ 0 := by omega
  have hinfinity : double.infinity = 2047 * 2 ^ 52 := rfl
  have hmlog : m.log2 < 53 := (Nat.log2_lt hm₀).2 hm
  have hmbounds := significand_bounds hm₀
  rw [nearest_eq hm₀, hinfinity]
  by_cases hn : n = 0
  · subst hn
    rw [show double.nearest 0 1 = 0 from rfl]
    omega
  have hnlog : n.log2 < 53 := (Nat.log2_lt hn).2 (by omega)
  have hlog := log2_mono hn (Nat.le_of_lt h)
  rw [nearest_eq hn, hinfinity]
  have hpow : 0 < 2 ^ (52 - n.log2) := Nat.two_pow_pos _
  have hsignificand := significand_eq hn (by omega)
  have hstrict : (n.log2 + 1022) * 2 ^ 52 + significand n <
      (m.log2 + 1022) * 2 ^ 52 + significand m := by
    rcases Nat.lt_or_eq_of_le hlog with hlogs | heq
    · have hbound : significand n < 2 ^ 53 := by
        rw [hsignificand]
        exact (scaled_bounds hn (by omega)).2
      omega
    · have hlarger : significand n < significand m := by
        rw [hsignificand, significand_eq hm₀ hm, ← heq]
        exact Nat.mul_lt_mul_of_pos_right h hpow
      omega
  have hfinite : (m.log2 + 1022) * 2 ^ 52 + significand m ≤ 2047 * 2 ^ 52 := by
    calc (m.log2 + 1022) * 2 ^ 52 + significand m ≤ 1074 * 2 ^ 52 + 2 ^ 53 :=
          Nat.add_le_add (Nat.mul_le_mul_right _ (by omega)) hmbounds.2
      _ ≤ 2047 * 2 ^ 52 := by decide
  rw [Nat.min_eq_right hfinite, Nat.min_eq_right (Nat.le_of_lt (Nat.lt_of_lt_of_le hstrict hfinite))]
  exact hstrict

theorem nearest_le_infinity (f : Format) (num den : Nat) : f.nearest num den ≤ f.infinity := by
  unfold nearest
  split
  · exact Nat.zero_le _
  · exact Nat.min_le_left _ _

theorem nearest_lt_magnitudes (n : Nat) : double.nearest n 1 < double.magnitudes := by
  have hle := nearest_le_infinity double n 1
  have hinfinity : double.infinity = 2047 * 2 ^ 52 := rfl
  have hmagnitudes : double.magnitudes = 2 ^ 63 := rfl
  omega

end Format

namespace Binary

theorem key_ofMagnitude (negative : Bool) {m : Nat} (h : m < Format.double.magnitudes) :
    (ofMagnitude .double negative m).key = if negative then -(m : Int) - 1 else m := by
  have hmagnitudes : Format.double.magnitudes = 2 ^ 63 := rfl
  have hwidth : 1 + Format.double.exponentBits + Format.double.fractionBits = 64 := rfl
  have hnat : (ofMagnitude .double negative m).toNat =
      (if negative then Format.double.magnitudes else 0) + m := by
    simp only [ofMagnitude, toNat, BitVec.toNat_ofNat, hwidth, hmagnitudes] at h ⊢
    split <;> omega
  simp only [key, isNegative, magnitudeWord, hnat]
  rw [hmagnitudes] at h ⊢
  cases negative with
  | true =>
    simp
    omega
  | false =>
    simp
    omega

/-- Integers compare as the words they are rounded to. -/
theorem key_ofInt (i : Int) : (ofInt .double i).key =
    if i < 0 then -(Format.double.nearest i.natAbs 1 : Int) - 1
    else Format.double.nearest i.natAbs 1 := by
  rw [ofInt, key_ofMagnitude _ (Format.nearest_lt_magnitudes _)]
  simp

theorem key_ofInt_le {i k : Int} (h : i ≤ k) : (ofInt .double i).key ≤ (ofInt .double k).key := by
  rw [key_ofInt, key_ofInt]
  split <;> split
  · have := Format.nearest_le (n := k.natAbs) (m := i.natAbs) (by omega)
    omega
  · omega
  · omega
  · have := Format.nearest_le (n := i.natAbs) (m := k.natAbs) (by omega)
    omega

theorem key_ofInt_lt {i k : Int} (h : i < k) (hi : i.natAbs < 2 ^ 53) (hk : k.natAbs < 2 ^ 53) :
    (ofInt .double i).key < (ofInt .double k).key := by
  rw [key_ofInt, key_ofInt]
  split <;> split
  · have := Format.nearest_lt (n := k.natAbs) (m := i.natAbs) (by omega) hi
    omega
  · omega
  · omega
  · have := Format.nearest_lt (n := i.natAbs) (m := k.natAbs) (by omega) hk
    omega

end Binary

end PageDb
