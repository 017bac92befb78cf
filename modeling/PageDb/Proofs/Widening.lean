import PageDb.Entry.Convert
import PageDb.Proofs.EntryOrder
import PageDb.Proofs.Rounding

/-!
Four-byte numbers as eight-byte numbers.

A four-byte number is an eight-byte number exactly, so different words stay different: NaNs too, if
they are quiet.  All that a column of a table stores is quiet, so there the same key is an equal key.
-/

namespace PageDb

namespace Format

/-- The eight-byte word of the number `m * 2 ^ e`. -/
def widened (m : Nat) (e : Int) : Nat :=
  if m = 0 then 0 else (m.log2 + e + 1022).toNat * 2 ^ 52 + m * 2 ^ (52 - m.log2)

theorem divideToEven_mul {q den : Nat} (hden : 0 < den) : divideToEven (q * den) den = q := by
  simp [divideToEven, Nat.mul_div_cancel q hden]
  omega

theorem log2_mul_pow {m : Nat} (hm : m ≠ 0) (a : Nat) : (m * 2 ^ a).log2 = m.log2 + a := by
  have hpos : m * 2 ^ a ≠ 0 := Nat.mul_ne_zero hm (Nat.ne_of_gt (Nat.two_pow_pos a))
  refine (Nat.log2_eq_iff hpos).2 ⟨?_, ?_⟩
  · rw [Nat.pow_add]
    exact Nat.mul_le_mul_right _ (Nat.log2_self_le hm)
  · rw [show m.log2 + a + 1 = m.log2 + 1 + a by omega, Nat.pow_add]
    exact Nat.mul_lt_mul_of_pos_right Nat.lt_log2_self (Nat.two_pow_pos a)

theorem floorLog_two_pow {m : Nat} (hm : m ≠ 0) (b : Nat) :
    floorLog m (2 ^ b) = (m.log2 : Int) - b := by
  have hle := Nat.log2_self_le hm
  have hnot : ¬ (rescale m (2 ^ b) ((m.log2 : Int) - b)).1 < (rescale m (2 ^ b) (m.log2 - b)).2 := by
    unfold rescale
    split
    · rw [Nat.pow_eq, ← Nat.pow_add, show b + ((m.log2 : Int) - b).toNat = m.log2 by omega]
      omega
    · have hsplit : 2 ^ b = 2 ^ m.log2 * 2 ^ (-((m.log2 : Int) - b)).toNat := by
        rw [← Nat.pow_add]
        congr 1
        omega
      simp only [Nat.pow_eq]
      rw [Nat.not_lt, hsplit]
      exact Nat.mul_le_mul_right _ hle
  simp only [floorLog, Nat.log2_two_pow, hnot, if_false]

theorem rescale_zero (den : Nat) (e : Int) : (rescale 0 den e).1 = 0 := by
  unfold rescale
  split
  · rfl
  · exact Nat.zero_mul _

/-- Both sides of an equation of numbers may be scaled alike. -/
theorem scaled_eq {m q a b : Nat} {e unit : Int}
    (h : m * 2 ^ (e - unit).toNat = q * 2 ^ (unit - e).toNat) (hab : (a : Int) - b = e - unit) :
    m * 2 ^ a = q * 2 ^ b := by
  obtain ⟨c, ha⟩ : ∃ c, a = (e - unit).toNat + c := ⟨a - (e - unit).toNat, by omega⟩
  have hb : b = (unit - e).toNat + c := by omega
  rw [ha, hb, Nat.pow_add, Nat.pow_add, ← Nat.mul_assoc, h, Nat.mul_assoc]

/-- A number that is a multiple of the unit `2 ^ unit`, as a ratio in that unit. -/
theorem rescale_rescale {m q : Nat} {e unit : Int}
    (h : m * 2 ^ (e - unit).toNat = q * 2 ^ (unit - e).toNat) :
    ∃ k, rescale (rescale m 1 (-e)).1 (rescale m 1 (-e)).2 unit = (q * 2 ^ k, 2 ^ k) := by
  by_cases he : 0 ≤ -e <;> by_cases hunit : 0 ≤ unit
  · refine ⟨(-e).toNat + unit.toNat, ?_⟩
    have hnum := scaled_eq h (a := 0) (b := (-e).toNat + unit.toNat) (by omega)
    simp only [rescale, if_pos he, if_pos hunit, Nat.pow_eq, ← hnum]
    simp [Nat.pow_add]
  · refine ⟨(-e).toNat, ?_⟩
    simp only [rescale, if_pos he, if_neg hunit, Nat.pow_eq, Nat.one_mul]
    rw [scaled_eq h (b := (-e).toNat) (by omega)]
  · refine ⟨unit.toNat, ?_⟩
    simp only [rescale, if_neg he, if_pos hunit, Nat.pow_eq, Nat.one_mul]
    rw [scaled_eq h (b := unit.toNat) (by omega)]
  · refine ⟨0, ?_⟩
    simp only [rescale, if_neg he, if_neg hunit, Nat.pow_eq]
    rw [Nat.mul_assoc, ← Nat.pow_add, scaled_eq h (b := 0) (by omega), Nat.pow_zero]

theorem floorLog_rescale {m : Nat} (hm : m ≠ 0) (e : Int) :
    floorLog (rescale m 1 (-e)).1 (rescale m 1 (-e)).2 = m.log2 + e := by
  by_cases he : 0 ≤ -e
  · simp only [rescale, if_pos he, Nat.pow_eq, Nat.one_mul]
    rw [floorLog_two_pow hm]
    omega
  · have hpos : m * 2 ^ (- -e).toNat ≠ 0 := Nat.mul_ne_zero hm (Nat.ne_of_gt (Nat.two_pow_pos _))
    simp only [rescale, if_neg he, Nat.pow_eq]
    rw [floorLog_one hpos, log2_mul_pow hm]
    omega

/-- A number that is a multiple of its last place in a format is not rounded. -/
theorem nearest_eq_of_multiple {f : Format} {m q : Nat} {e unit : Int} (hm : m ≠ 0)
    (hunit : max (m.log2 + e - f.fractionBits) f.minExponent = unit)
    (h : m * 2 ^ (e - unit).toNat = q * 2 ^ (unit - e).toNat) :
    f.nearest (rescale m 1 (-e)).1 (rescale m 1 (-e)).2 =
      min f.infinity ((unit - f.minExponent).toNat * 2 ^ f.fractionBits + q) := by
  have hnum : (rescale m 1 (-e)).1 ≠ 0 := by
    unfold rescale
    split
    · exact hm
    · exact Nat.mul_ne_zero hm (Nat.ne_of_gt (Nat.two_pow_pos _))
  obtain ⟨k, hk⟩ := rescale_rescale h
  rw [nearest, if_neg hnum, floorLog_rescale hm, hunit]
  simp only [hk]
  rw [divideToEven_mul (Nat.two_pow_pos k)]
  rfl

theorem widened_le {m : Nat} {e : Int} (hm : m < 2 ^ 24) (hhi : e ≤ 104) :
    widened m e < double.infinity := by
  have hinfinity : double.infinity = 2047 * 2 ^ 52 := rfl
  unfold widened
  split
  · rw [hinfinity]
    exact Nat.mul_pos (by omega) (Nat.two_pow_pos 52)
  rename_i hne
  have hlog : m.log2 < 24 := (Nat.log2_lt hne).2 hm
  have hbits := (scaled_bounds hne (by omega)).2
  have hfield : (m.log2 + e + 1022).toNat ≤ 1149 := by omega
  have := Nat.mul_le_mul_right (2 ^ 52) hfield
  omega

/-- Four-byte numbers are not rounded. -/
theorem nearest_widened {m : Nat} {e : Int} (hm : m < 2 ^ 24) (hlo : -149 ≤ e) (hhi : e ≤ 104) :
    double.nearest (rescale m 1 (-e)).1 (rescale m 1 (-e)).2 = widened m e := by
  have hbound := Nat.le_of_lt (widened_le hm hhi)
  by_cases hne : m = 0
  · subst hne
    rw [nearest, if_pos (rescale_zero 1 (-e)), widened, if_pos rfl]
  have hlog : m.log2 < 24 := (Nat.log2_lt hne).2 hm
  have hfraction : double.fractionBits = 52 := rfl
  have hmin : double.minExponent = -1074 := rfl
  rw [widened, if_neg hne] at hbound ⊢
  have hunit : max (m.log2 + e - double.fractionBits) double.minExponent = m.log2 + e - 52 := by
    rw [hfraction, hmin]
    omega
  rw [nearest_eq_of_multiple (q := m * 2 ^ (52 - m.log2)) hne hunit ?_, hmin, hfraction]
  · rw [show (m.log2 + e - 52 - -1074 : Int) = m.log2 + e + 1022 by omega]
    exact Nat.min_eq_right hbound
  · rw [show (e - (m.log2 + e - 52)).toNat = 52 - m.log2 by omega,
      show ((m.log2 : Int) + e - 52 - e).toNat = 0 by omega, Nat.pow_zero, Nat.mul_one]

/-- The eight-byte magnitude word that a four-byte one becomes. -/
def widen (n : Nat) : Nat :=
  if n < 2 ^ 23 then widened n (-149)
  else if n < single.infinity then 896 * 2 ^ 52 + n * 2 ^ 29
  else 1792 * 2 ^ 52 + n * 2 ^ 29

theorem log2_eq_of_normal {m : Nat} (hlo : 2 ^ 23 ≤ m) (hhi : m < 2 ^ 24) : m.log2 = 23 :=
  (Nat.log2_eq_iff (by omega)).2 ⟨hlo, hhi⟩

/-- The words of the numbers below the normal ones are below those of the normal ones, and in their
order. -/
theorem widened_subnormal {n : Nat} (hn : n ≠ 0) (h : n < 2 ^ 23) :
    (n.log2 + 874) * 2 ^ 52 ≤ widened n (-149) ∧ widened n (-149) < (n.log2 + 875) * 2 ^ 52 := by
  have hlog : n.log2 < 23 := (Nat.log2_lt hn).2 h
  obtain ⟨hlo, hhi⟩ := scaled_bounds hn (by omega)
  have hfield : ((n.log2 : Int) + -149 + 1022).toNat = n.log2 + 873 := by omega
  rw [widened, if_neg hn, hfield]
  omega

theorem widened_subnormal_lt {n n' : Nat} (h : n < n') (h' : n' < 2 ^ 23) :
    widened n (-149) < widened n' (-149) := by
  have hn' : n' ≠ 0 := by omega
  have hbounds' := widened_subnormal hn' h'
  by_cases hn : n = 0
  · subst hn
    rw [widened, if_pos rfl]
    omega
  have hbounds := widened_subnormal hn (Nat.lt_trans h h')
  rcases Nat.lt_or_eq_of_le (log2_mono hn (Nat.le_of_lt h)) with hlog | hlog
  · omega
  · have hlt : n * 2 ^ (52 - n.log2) < n' * 2 ^ (52 - n.log2) :=
      Nat.mul_lt_mul_of_pos_right h (Nat.two_pow_pos _)
    rw [widened, widened, if_neg hn, if_neg hn', ← hlog]
    omega

theorem widen_of_subnormal {n : Nat} (h : n < 2 ^ 23) : widen n = widened n (-149) := if_pos h

theorem widen_of_normal {n : Nat} (hlo : 2 ^ 23 ≤ n) (hhi : n < single.infinity) :
    widen n = 896 * 2 ^ 52 + n * 2 ^ 29 := by
  rw [widen, if_neg (Nat.not_lt.2 hlo), if_pos hhi]

theorem widen_of_infinity_le {n : Nat} (h : single.infinity ≤ n) :
    widen n = 1792 * 2 ^ 52 + n * 2 ^ 29 := by
  have hinfinity : 2 ^ 23 ≤ single.infinity := by decide
  rw [widen, if_neg (Nat.not_lt.2 (Nat.le_trans hinfinity h)), if_neg (Nat.not_lt.2 h)]

theorem widen_subnormal_lt {n : Nat} (h : n < 2 ^ 23) : widen n < 897 * 2 ^ 52 := by
  rw [widen_of_subnormal h]
  by_cases hn : n = 0
  · rw [hn, widened, if_pos rfl]
    exact Nat.mul_pos (by omega) (Nat.two_pow_pos 52)
  · have hlog : n.log2 < 23 := (Nat.log2_lt hn).2 h
    calc widened n (-149) < (n.log2 + 875) * 2 ^ 52 := (widened_subnormal hn h).2
      _ ≤ 897 * 2 ^ 52 := Nat.mul_le_mul_right _ (by omega)

/-- Widening keeps the order of words strictly. -/
theorem widen_lt {n n' : Nat} (h : n < n') : widen n < widen n' := by
  have hinfinity : single.infinity = 255 * 2 ^ 23 := rfl
  -- subnormal, normal and infinite words follow each other
  rcases Nat.lt_or_ge n' (2 ^ 23) with hn' | hn'
  · rw [widen_of_subnormal (Nat.lt_trans h hn'), widen_of_subnormal hn']
    exact widened_subnormal_lt h hn'
  have hlow : 897 * 2 ^ 52 ≤ widen n' := by
    rcases Nat.lt_or_ge n' single.infinity with hfinite | hlarge
    · rw [widen_of_normal hn' hfinite]
      omega
    · rw [widen_of_infinity_le hlarge]
      omega
  rcases Nat.lt_or_ge n (2 ^ 23) with hn | hn
  · exact Nat.lt_of_lt_of_le (widen_subnormal_lt hn) hlow
  rcases Nat.lt_or_ge n' single.infinity with hfinite | hlarge
  · rw [widen_of_normal hn (Nat.lt_trans h hfinite), widen_of_normal hn' hfinite]
    omega
  · rw [widen_of_infinity_le hlarge]
    rcases Nat.lt_or_ge n single.infinity with hfinite | hlarge'
    · rw [widen_of_normal hn hfinite]
      omega
    · rw [widen_of_infinity_le hlarge']
      omega

theorem widen_injective {n n' : Nat} (h : widen n = widen n') : n = n' := by
  rcases Nat.lt_trichotomy n n' with hlt | heq | hgt
  · exact absurd h (Nat.ne_of_lt (widen_lt hlt))
  · exact heq
  · exact absurd h (Nat.ne_of_gt (widen_lt hgt))

theorem widen_lt_magnitudes {n : Nat} (h : n < single.magnitudes) : widen n < double.magnitudes := by
  have hlimit : single.magnitudes = 2 ^ 31 := rfl
  have hmagnitudes : double.magnitudes = 2 ^ 63 := rfl
  have hlargest : widen (2 ^ 31 - 1) < 2 ^ 63 := by decide
  rw [hmagnitudes]
  rw [hlimit] at h
  rcases Nat.lt_or_eq_of_le (Nat.le_sub_one_of_lt h) with hlt | heq
  · exact Nat.lt_trans (widen_lt hlt) hlargest
  · rw [heq]
    exact hlargest

/-! ## Reading magnitude words -/

theorem magnitude_of_lt {f : Format} {n : Nat} (h : n < f.infinity) :
    ∃ m e, f.magnitude n = .finite m e := by
  simp only [magnitude, if_pos h]
  split
  · exact ⟨_, _, rfl⟩
  · exact ⟨_, _, rfl⟩

theorem magnitude_infinity (f : Format) : f.magnitude f.infinity = .infinite := by
  simp [magnitude]

theorem magnitude_of_gt {f : Format} {n : Nat} (h : f.infinity < n) :
    f.magnitude n = .nan (n - f.infinity) := by
  rw [magnitude, if_neg (Nat.not_lt.2 (Nat.le_of_lt h)), if_neg (Nat.ne_of_gt h)]

/-- How a finite four-byte word is read: `m` is less than half full only at the smallest exponent. -/
theorem magnitude_single {n : Nat} (h : n < single.infinity) :
    ∃ m e, single.magnitude n = .finite m e ∧ m < 2 ^ 24 ∧ -149 ≤ e ∧ e ≤ 104 ∧
      (m < 2 ^ 23 → e = -149) ∧ n = (e + 149).toNat * 2 ^ 23 + m := by
  have hinfinity : single.infinity = 255 * 2 ^ 23 := rfl
  have hread : single.magnitude n =
      if n / 2 ^ 23 = 0 then .finite (n % 2 ^ 23) (-149)
      else .finite (2 ^ 23 + n % 2 ^ 23) (-149 + (n / 2 ^ 23 - 1 : Nat)) := by
    simp only [magnitude, if_pos h]
    rfl
  by_cases hfield : n / 2 ^ 23 = 0
  · refine ⟨_, _, by rw [hread, if_pos hfield], ?_⟩
    omega
  · refine ⟨_, _, by rw [hread, if_neg hfield], ?_⟩
    omega

/-- A finite four-byte word stands for what its widened word stands for. -/
theorem widened_of_magnitude {n m : Nat} {e : Int} (h : n < single.infinity)
    (hread : single.magnitude n = .finite m e) : widened m e = widen n := by
  obtain ⟨m', e', hread', hm, hlo, hhi, hsmall, hn⟩ := magnitude_single h
  obtain ⟨rfl, rfl⟩ := Magnitude.finite.inj (hread'.symm.trans hread)
  rcases Nat.lt_or_ge m' (2 ^ 23) with hlow | hfull
  · obtain rfl := hsmall hlow
    have hsame : n = m' := by omega
    rw [widen_of_subnormal (by omega), hsame]
  · rw [widen_of_normal (by omega) h, widened, if_neg (by omega), log2_eq_of_normal hfull hm]
    omega

/-- Widening does not round. -/
theorem nearest_magnitude {n : Nat} (h : n < single.infinity) :
    ∃ m e, single.magnitude n = .finite m e ∧
      double.nearest (rescale m 1 (-e)).1 (rescale m 1 (-e)).2 = widen n := by
  obtain ⟨m, e, hread, hm, hlo, hhi, -⟩ := magnitude_single h
  exact ⟨m, e, hread, (nearest_widened hm hlo hhi).trans (widened_of_magnitude h hread)⟩

/-- A bit that is the top one already is there. -/
theorem or_two_pow {n k : Nat} (hlo : 2 ^ k ≤ n) (hhi : n < 2 ^ (k + 1)) : n ||| 2 ^ k = n := by
  have hrest : n - 2 ^ k < 2 ^ k := by omega
  have hsplit : n = 2 ^ k ||| (n - 2 ^ k) := by
    have hor := Nat.two_pow_add_eq_or_of_lt hrest 1
    rw [Nat.mul_one] at hor
    rw [← hor]
    omega
  rw [hsplit, Nat.or_comm, ← Nat.or_assoc, Nat.or_self]

end Format

namespace Binary

variable {f : Format}

/-- No NaN, or a quiet one. -/
def Quiet (x : Binary f) : Prop :=
  f.infinity < x.magnitudeWord → f.infinity + f.quietBit ≤ x.magnitudeWord

theorem magnitudes_pos (f : Format) : 0 < f.magnitudes := Nat.two_pow_pos _

theorem toNat_lt (x : Binary f) : x.toNat < 2 * f.magnitudes := by
  have hwidth : 2 ^ (1 + f.exponentBits + f.fractionBits) = 2 * f.magnitudes := by
    rw [Format.magnitudes, Nat.pow_eq, Nat.add_assoc, Nat.pow_add, Nat.pow_one]
  exact hwidth ▸ x.bits.isLt

theorem toNat_eq (x : Binary f) :
    x.toNat = (if x.isNegative then f.magnitudes else 0) + x.magnitudeWord := by
  have hlt := x.toNat_lt
  by_cases hsign : f.magnitudes ≤ x.toNat
  · have hword : x.toNat % f.magnitudes = x.toNat - f.magnitudes := by
      rw [Nat.mod_eq_sub_mod hsign, Nat.mod_eq_of_lt (by omega)]
    simp only [isNegative, magnitudeWord, hsign, decide_true, if_true, hword]
    omega
  · simp [isNegative, magnitudeWord, hsign, Nat.mod_eq_of_lt (Nat.not_le.1 hsign)]

/-- A word is given by its sign and its magnitude. -/
theorem ext_parts {x y : Binary f} (hsign : x.isNegative = y.isNegative)
    (hword : x.magnitudeWord = y.magnitudeWord) : x = y := by
  have hnat : x.bits.toNat = y.bits.toNat := by
    have hx := x.toNat_eq
    rwa [hsign, hword, ← y.toNat_eq] at hx
  cases x
  cases y
  simpa [BitVec.toNat_inj] using hnat

/-- Different words have different keys. -/
theorem key_injective {x y : Binary f} (h : x.key = y.key) : x = y := by
  simp only [key] at h
  cases hx : x.isNegative <;> cases hy : y.isNegative <;>
    simp only [hx, hy, Bool.false_eq_true, if_true, if_false] at h
  · exact ext_parts (hx.trans hy.symm) (by omega)
  · omega
  · omega
  · exact ext_parts (hx.trans hy.symm) (by omega)

theorem toNat_ofMagnitude (negative : Bool) {m : Nat} (h : m < f.magnitudes) :
    (ofMagnitude f negative m).toNat = (if negative then f.magnitudes else 0) + m := by
  have hwidth : 2 ^ (1 + f.exponentBits + f.fractionBits) = 2 * f.magnitudes := by
    rw [Format.magnitudes, Nat.pow_eq, Nat.add_assoc, Nat.pow_add, Nat.pow_one]
  rw [toNat, ofMagnitude, BitVec.toNat_ofNat, hwidth, Nat.mod_eq_of_lt]
  split <;> omega

theorem magnitudeWord_ofMagnitude (negative : Bool) {m : Nat} (h : m < f.magnitudes) :
    (ofMagnitude f negative m).magnitudeWord = m := by
  rw [magnitudeWord, toNat_ofMagnitude negative h]
  split
  · rw [Nat.add_mod_left, Nat.mod_eq_of_lt h]
  · rw [Nat.zero_add, Nat.mod_eq_of_lt h]

theorem isNegative_ofMagnitude (negative : Bool) {m : Nat} (h : m < f.magnitudes) :
    (ofMagnitude f negative m).isNegative = negative := by
  rw [isNegative, toNat_ofMagnitude negative h]
  cases negative with
  | true => simp
  | false => simpa using h

theorem magnitudeWord_lt (x : Binary f) : x.magnitudeWord < f.magnitudes :=
  Nat.mod_lt _ (magnitudes_pos f)

/-- A word is made of its sign and its magnitude. -/
theorem ofMagnitude_parts (x : Binary f) : ofMagnitude f x.isNegative x.magnitudeWord = x :=
  ext_parts (isNegative_ofMagnitude _ x.magnitudeWord_lt)
    (magnitudeWord_ofMagnitude _ x.magnitudeWord_lt)

/-- Narrowing makes NaNs quiet. -/
theorem quiet_convert (x : Binary .double) : (x.convert .single).Quiet := by
  rcases Nat.lt_trichotomy x.magnitudeWord Format.double.infinity with hlt | heq | hgt
  · obtain ⟨m, e, hfinite⟩ := Format.magnitude_of_lt hlt
    have hle := Format.nearest_le_infinity .single (Format.rescale m 1 (-e)).1
      (Format.rescale m 1 (-e)).2
    simp only [Quiet, convert, magnitude, hfinite, ofScaled]
    rw [magnitudeWord_ofMagnitude _ (Nat.lt_of_le_of_lt hle (by decide))]
    exact fun hnan => absurd hle (Nat.not_le.2 hnan)
  · simp only [Quiet, convert, magnitude, heq, Format.magnitude_infinity]
    rw [magnitudeWord_ofMagnitude _ (by decide)]
    exact fun hnan => absurd hnan (Nat.lt_irrefl _)
  · have hpayload : x.magnitudeWord - Format.double.infinity < 2 ^ 52 :=
      Nat.sub_lt_left_of_lt_add (Nat.le_of_lt hgt) (Nat.mod_lt _ (magnitudes_pos .double))
    have haligned : (x.magnitudeWord - Format.double.infinity) * 2 ^ 23 / 2 ^ 52 < 2 ^ 23 := by
      rw [Nat.div_lt_iff_lt_mul (Nat.two_pow_pos _), Nat.mul_comm]
      exact Nat.mul_lt_mul_of_pos_left hpayload (Nat.two_pow_pos _)
    have hfraction := Nat.or_lt_two_pow haligned (show 2 ^ 22 < 2 ^ 23 by decide)
    simp only [Quiet, convert, magnitude, Format.magnitude_of_gt hgt]
    rw [magnitudeWord_ofMagnitude _ (Nat.add_lt_add_left hfraction _)]
    exact fun _ => Nat.add_le_add_left Nat.right_le_or _

/-- Widening a quiet word. -/
theorem convert_double {x : Binary .single} (hx : x.Quiet) :
    x.convert .double = ofMagnitude .double x.isNegative (Format.widen x.magnitudeWord) := by
  rcases Nat.lt_trichotomy x.magnitudeWord Format.single.infinity with hlt | heq | hgt
  · obtain ⟨m, e, hfinite, hnearest⟩ := Format.nearest_magnitude hlt
    simp only [convert, magnitude, hfinite, ofScaled]
    rw [hnearest]
  · have hwiden : Format.widen Format.single.infinity = Format.double.infinity := by decide
    simp only [convert, magnitude, heq, Format.magnitude_infinity]
    rw [hwiden]
  · have hquiet : 2 ^ 22 ≤ x.magnitudeWord - Format.single.infinity :=
      Nat.le_sub_of_add_le' (hx hgt)
    have hpayload : x.magnitudeWord - Format.single.infinity < 2 ^ 23 :=
      Nat.sub_lt_left_of_lt_add (Nat.le_of_lt hgt) (Nat.mod_lt _ (magnitudes_pos .single))
    simp only [convert, magnitude, Format.magnitude_of_gt hgt]
    have hword : Format.double.infinity + (x.magnitudeWord - Format.single.infinity) * 2 ^ 29 =
        1792 * 2 ^ 52 + x.magnitudeWord * 2 ^ 29 := by
      have hsingle : Format.single.infinity = 255 * 2 ^ 23 := rfl
      have hdouble : Format.double.infinity = 2047 * 2 ^ 52 := rfl
      rw [hsingle] at hgt ⊢
      rw [hdouble]
      omega
    have haligned : (x.magnitudeWord - Format.single.infinity) * 2 ^ 52 / 2 ^ 23 =
        (x.magnitudeWord - Format.single.infinity) * 2 ^ 29 := by
      rw [show 2 ^ 52 = 2 ^ 29 * 2 ^ 23 by decide, ← Nat.mul_assoc, Nat.mul_div_cancel _ (by decide)]
    have hpayload' : (x.magnitudeWord - Format.single.infinity) * 2 ^ 29 ||| 2 ^ 51 =
        (x.magnitudeWord - Format.single.infinity) * 2 ^ 29 :=
      Format.or_two_pow (by omega) (by omega)
    rw [Format.widen_of_infinity_le (Nat.le_of_lt hgt), ← hword, ← hpayload', ← haligned]
    rfl

/-- Different quiet words stay different when they are widened. -/
theorem key_convert_injective {x y : Binary .single} (hx : x.Quiet) (hy : y.Quiet)
    (h : (x.convert .double).key = (y.convert .double).key) : x = y := by
  have hword (z : Binary .single) : Format.widen z.magnitudeWord < Format.double.magnitudes :=
    Format.widen_lt_magnitudes (Nat.mod_lt _ (magnitudes_pos .single))
  rw [convert_double hx, convert_double hy, key_ofMagnitude _ (hword x),
    key_ofMagnitude _ (hword y)] at h
  cases hsx : x.isNegative <;> cases hsy : y.isNegative <;>
    simp only [hsx, hsy, Bool.false_eq_true, if_true, if_false] at h
  · exact ext_parts (hsx.trans hsy.symm) (Format.widen_injective (by omega))
  · omega
  · omega
  · exact ext_parts (hsx.trans hsy.symm) (Format.widen_injective (by omega))

end Binary

namespace Entry

/-- Not a number that only signals: what a table stores never is. -/
def Quiet : Entry → Prop
  | .float x => x.Quiet
  | _ => True

/-- Among the values of a column, the same key is an equal key. -/
theorem eq_of_same {t : ColumnType} {a b : Entry} (ha : a.fits t) (hb : b.fits t) (hqa : a.Quiet)
    (hqb : b.Quiet) (h : a.same b = true) : a = b := by
  rw [same_iff, compare_eq_order ha hb] at h
  rcases ha with rfl | ha
  · rcases hb with rfl | hb
    · rfl
    · cases b <;> cases hb <;> cases h
  rcases hb with rfl | hb
  · cases a <;> cases ha <;> cases h
  cases a <;> cases ha <;> cases b <;> cases hb
  case int.refl.int.refl => exact congrArg int (Int32.toInt_inj.1 (Std.LawfulEqOrd.eq_of_compare h))
  case long.refl.long.refl =>
    exact congrArg long (Int64.toInt_inj.1 (Std.LawfulEqOrd.eq_of_compare h))
  case float.refl.float.refl =>
    exact congrArg float (Binary.key_convert_injective hqa hqb (Std.LawfulEqOrd.eq_of_compare h))
  case double.refl.double.refl =>
    exact congrArg double (Binary.key_injective (Std.LawfulEqOrd.eq_of_compare h))
  case text.refl.text.refl => exact congrArg text (Std.LawfulEqOrd.eq_of_compare h)

end Entry

end PageDb
