import PageDb.Proofs.Widening

/-!
Getting numbers back from eight-byte numbers.

Integers below `2 ^ 53` and four-byte numbers are eight-byte numbers exactly, and converting these
back gives what they were made from.
-/

namespace PageDb

namespace Format

/-- A word with a full significand is read back from its exponent field and its significand. -/
theorem magnitude_of_normal {f : Format} {field m : Nat} (hlo : 2 ^ f.fractionBits ≤ m)
    (hhi : m < 2 ^ (f.fractionBits + 1)) (h : field * 2 ^ f.fractionBits + m < f.infinity) :
    f.magnitude (field * 2 ^ f.fractionBits + m) = .finite m (f.minExponent + field) := by
  have hpos := Nat.two_pow_pos f.fractionBits
  have hsplit : field * 2 ^ f.fractionBits + m =
      (m - 2 ^ f.fractionBits) + (field + 1) * 2 ^ f.fractionBits := by
    rw [Nat.add_mul, Nat.one_mul]
    omega
  have hrest : m - 2 ^ f.fractionBits < 2 ^ f.fractionBits := by
    rw [Nat.pow_succ] at hhi
    omega
  have hfield : (field * 2 ^ f.fractionBits + m) / 2 ^ f.fractionBits = field + 1 := by
    rw [hsplit, Nat.add_mul_div_right _ _ hpos, Nat.div_eq_of_lt hrest, Nat.zero_add]
  have hfraction : (field * 2 ^ f.fractionBits + m) % 2 ^ f.fractionBits =
      m - 2 ^ f.fractionBits := by
    rw [hsplit, Nat.add_mul_mod_self_right, Nat.mod_eq_of_lt hrest]
  simp only [magnitude, if_pos h, Nat.pow_eq, hfield, hfraction]
  rw [if_neg (Nat.succ_ne_zero field), Nat.add_sub_cancel' hlo, Nat.add_sub_cancel]

/-- How a number of at most 53 bits is read back from its eight-byte word. -/
theorem magnitude_widened {m : Nat} {e : Int} (hm : m ≠ 0) (h : m < 2 ^ 53)
    (hlo : -1022 ≤ m.log2 + e) (hfinite : widened m e < double.infinity) :
    double.magnitude (widened m e) = .finite (m * 2 ^ (52 - m.log2)) (m.log2 + e - 52) := by
  have hlog : m.log2 < 53 := (Nat.log2_lt hm).2 h
  obtain ⟨hlow, hhigh⟩ := scaled_bounds hm (by omega)
  rw [widened, if_neg hm] at hfinite ⊢
  have hexponent : double.minExponent + ((m.log2 : Int) + e + 1022).toNat = m.log2 + e - 52 := by
    rw [show double.minExponent = -1074 from rfl]
    omega
  rw [← hexponent]
  exact magnitude_of_normal (f := double) hlow hhigh hfinite

/-- Integers below `2 ^ 53` are not rounded. -/
theorem nearest_eq_widened {n : Nat} (hn : n ≠ 0) (h : n < 2 ^ 53) :
    double.nearest n 1 = widened n 0 ∧ widened n 0 < double.infinity := by
  have hlog : n.log2 < 53 := (Nat.log2_lt hn).2 h
  have hscaled := (scaled_bounds hn (by omega)).2
  have hinfinity : double.infinity = 2047 * 2 ^ 52 := rfl
  have hfield : ((n.log2 : Int) + 0 + 1022).toNat = n.log2 + 1022 := by omega
  rw [nearest_eq hn, significand_eq hn h, widened, if_neg hn, hfield, hinfinity]
  omega

/-- A widened word is narrowed to the word that it was widened from. -/
theorem nearest_widen {n : Nat} (h : n < single.infinity) :
    ∃ m e, double.magnitude (widen n) = .finite m e ∧
      single.nearest (rescale m 1 (-e)).1 (rescale m 1 (-e)).2 = n := by
  obtain ⟨m, e, hread, hm, hlo, hhi, hsmall, hn⟩ := magnitude_single h
  rw [← widened_of_magnitude h hread]
  have hmin : single.minExponent = -149 := rfl
  have hfraction : single.fractionBits = 23 := rfl
  by_cases hzero : m = 0
  · obtain rfl := hsmall (by omega)
    exact ⟨0, -1074, by rw [hzero]; decide, by rw [hn, hzero]; decide⟩
  have hlog : m.log2 < 24 := (Nat.log2_lt hzero).2 hm
  refine ⟨_, _, magnitude_widened hzero (by omega) (by omega) (widened_le hm hhi), ?_⟩
  have hscaled : m * 2 ^ (52 - m.log2) ≠ 0 :=
    Nat.mul_ne_zero hzero (Nat.ne_of_gt (Nat.two_pow_pos _))
  -- the unit of the four-byte word is the exponent that it was read with
  have hunit : max (((m * 2 ^ (52 - m.log2)).log2 : Int) + (m.log2 + e - 52) - single.fractionBits)
      single.minExponent = e := by
    rw [log2_mul_pow hzero, hfraction, hmin]
    rcases Nat.lt_or_ge m (2 ^ 23) with hlow | hfull
    · have := hsmall hlow
      have : m.log2 < 23 := (Nat.log2_lt hzero).2 hlow
      omega
    · have := log2_eq_of_normal hfull hm
      omega
  rw [nearest_eq_of_multiple (q := m) hscaled hunit ?_, hmin, hfraction]
  · rw [show (e - -149 : Int) = e + 149 by omega, ← hn]
    exact Nat.min_eq_right (Nat.le_of_lt h)
  · rw [show ((m.log2 : Int) + e - 52 - e).toNat = 0 by omega,
      show (e - ((m.log2 : Int) + e - 52)).toNat = 52 - m.log2 by omega, Nat.pow_zero, Nat.mul_one]

end Format

namespace Binary

variable {f : Format}

/-- Narrowing gives back what was widened. -/
theorem convert_single_convert {x : Binary .single} (hx : x.Quiet) :
    (x.convert .double).convert .single = x := by
  have hlt := Format.widen_lt_magnitudes x.magnitudeWord_lt
  have hsign := isNegative_ofMagnitude x.isNegative hlt
  have hword := magnitudeWord_ofMagnitude x.isNegative hlt
  rw [convert_double hx]
  conv => rhs; rw [← x.ofMagnitude_parts]
  rcases Nat.lt_trichotomy x.magnitudeWord Format.single.infinity with hfinite | hinfinite | hnan
  · obtain ⟨m, e, hread, hnearest⟩ := Format.nearest_widen hfinite
    simp only [convert, magnitude, hsign, hword, hread, ofScaled, hnearest]
  · have hwiden : Format.widen Format.single.infinity = Format.double.infinity := by decide
    simp only [convert, magnitude, hsign, hword]
    simp only [hinfinite, hwiden, Format.magnitude_infinity]
  · have hquiet : 2 ^ 22 ≤ x.magnitudeWord - Format.single.infinity :=
      Nat.le_sub_of_add_le' (hx hnan)
    have hpayload : x.magnitudeWord - Format.single.infinity < 2 ^ 23 :=
      Nat.sub_lt_left_of_lt_add (Nat.le_of_lt hnan) x.magnitudeWord_lt
    have hwiden : Format.widen x.magnitudeWord =
        Format.double.infinity + (x.magnitudeWord - Format.single.infinity) * 2 ^ 29 := by
      have hsingle : Format.single.infinity = 255 * 2 ^ 23 := rfl
      have hdouble : Format.double.infinity = 2047 * 2 ^ 52 := rfl
      rw [Format.widen_of_infinity_le (Nat.le_of_lt hnan), hdouble]
      rw [hsingle] at hnan ⊢
      omega
    have hgt : Format.double.infinity < Format.widen x.magnitudeWord := by omega
    have haligned : (Format.widen x.magnitudeWord - Format.double.infinity) * 2 ^ 23 / 2 ^ 52 =
        x.magnitudeWord - Format.single.infinity := by
      rw [hwiden, Nat.add_sub_cancel_left, Nat.mul_assoc, ← Nat.pow_add,
        Nat.mul_div_cancel _ (Nat.two_pow_pos _)]
    have hfraction : (Format.widen x.magnitudeWord - Format.double.infinity) * 2 ^ 23 / 2 ^ 52 |||
        2 ^ 22 = x.magnitudeWord - Format.single.infinity := by
      rw [haligned, Format.or_two_pow hquiet hpayload]
    simp only [convert, magnitude, hsign, hword, Format.magnitude_of_gt hgt]
    refine congrArg (ofMagnitude .single x.isNegative) ?_
    exact (congrArg (Format.single.infinity + ·) hfraction).trans
      (Nat.add_sub_cancel' (Nat.le_of_lt hnan))

/-- The integer part of an integer below `2 ^ 53` is that integer. -/
theorem truncate_ofInt {i lo hi : Int} (h : i.natAbs < 2 ^ 53) (hlo : lo ≤ i) (hhi : i ≤ hi) :
    (ofInt .double i).truncate lo hi = i := by
  have hlt := Format.nearest_lt_magnitudes i.natAbs
  have hsign : (ofInt .double i).isNegative = decide (i < 0) := isNegative_ofMagnitude _ hlt
  have hword : (ofInt .double i).magnitudeWord = Format.double.nearest i.natAbs 1 :=
    magnitudeWord_ofMagnitude _ hlt
  have hwhole : ∃ m e, (ofInt .double i).magnitude = .finite m e ∧
      (Format.rescale m 1 (-e)).1 / (Format.rescale m 1 (-e)).2 = i.natAbs := by
    by_cases hzero : i = 0
    · subst hzero
      refine ⟨0, -1074, by decide, ?_⟩
      rw [Format.rescale_zero, Nat.zero_div, Int.natAbs_zero]
    have hne : i.natAbs ≠ 0 := by omega
    have hlog : i.natAbs.log2 < 53 := (Nat.log2_lt hne).2 h
    obtain ⟨hnearest, hfinite⟩ := Format.nearest_eq_widened hne h
    have hread := Format.magnitude_widened (e := 0) hne h (by omega) hfinite
    refine ⟨_, _, by rw [magnitude, hword, hnearest, hread], ?_⟩
    have hexponent : (-((i.natAbs.log2 : Int) + 0 - 52)).toNat = 52 - i.natAbs.log2 := by omega
    rw [Format.rescale, if_pos (by omega), hexponent, Nat.one_mul, Nat.pow_eq]
    exact Nat.mul_div_cancel _ (Nat.two_pow_pos _)
  obtain ⟨m, e, hread, hquotient⟩ := hwhole
  simp only [truncate, hread, hsign, hquotient, decide_eq_true_eq]
  split <;> omega

end Binary

end PageDb
