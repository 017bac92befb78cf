import PageDb.Proofs.EntryOrder
import PageDb.Proofs.Rounding
import PageDb.Query.Predicate

/-!
Comparing the entries of two columns.

An index compares two integers exactly and all other numbers after rounding, while a predicate
always rounds.  `Entry.meetingPlace` is what the values of two columns compare by in an index, and
`Entry.roundedPlace` is what they compare by in a predicate.
-/

namespace PageDb

namespace ColumnType

/-- Whether the values are integers. -/
def isIntegral : ColumnType → Bool
  | .int => true
  | .long => true
  | _ => false

/-- Whether rounding may bring different values of two columns together: those of eight-byte integers
and of anything but four-byte integers. -/
def roundsWith (t u : ColumnType) : Bool := t = .long && u ≠ .int || u = .long && t ≠ .int

theorem roundsWith_comm (t u : ColumnType) : t.roundsWith u = u.roundsWith t := by
  cases t <;> cases u <;> rfl

end ColumnType

namespace Entry

/-- Only equal places compare as equal. -/
theorem Place.order_eq_iff {p q : Place} : p.order q = .eq ↔ p = q := by
  cases p <;> cases q <;> simp [Place.order, Place.rank]

/-- What an entry compares by after rounding. -/
def roundedPlace (e : Entry) : Place :=
  match e, e.number? with
  | .text s, _ => .text s
  | _, some x => .number x.key
  | _, none => .bottom

/-- What the entries of two columns compare by in an index. -/
def meetingPlace (t u : ColumnType) (e : Entry) : Place :=
  if t.isIntegral && u.isIntegral then e.ownPlace else e.roundedPlace

theorem meetingPlace_comm (t u : ColumnType) (e : Entry) :
    e.meetingPlace t u = e.meetingPlace u t := by
  rw [meetingPlace, meetingPlace, Bool.and_comm]

variable {t u : ColumnType} {a b : Entry}

/-- Entries of two columns compare by their meeting places. -/
theorem compare_eq_meeting (ha : a.fits t) (hb : b.fits u) :
    Ord.compare a b = (a.meetingPlace t u).order (b.meetingPlace t u) := by
  unfold meetingPlace
  rcases ha with rfl | ha
  · split <;> cases b <;> rfl
  rcases hb with rfl | hb
  · split <;> cases a <;> rfl
  cases a <;> cases b <;>
    simp only [type?, Option.some.injEq, reduceCtorEq] at ha hb <;>
    subst ha hb <;> rfl

/-- Whether different values of a column stay apart when they meet those of another column. -/
def Strict (t u : ColumnType) : Prop := t ≠ .long ∨ u.isIntegral = true

theorem strict_or (t u : ColumnType) : Strict t u ∨ Strict u t := by
  cases t <;> cases u <;> simp [Strict, ColumnType.isIntegral]

theorem strict_of_not_rounds (h : t.roundsWith u = false) : Strict t u := by
  cases t <;> cases u <;> simp_all [Strict, ColumnType.isIntegral, ColumnType.roundsWith]

theorem natAbs_int32_lt (v : Int32) : v.toInt.natAbs + 1 < 2 ^ 53 := by
  have hlo := v.le_toInt
  have hhi := v.toInt_lt
  omega

/-- Four-byte integers keep their order when they are rounded. -/
theorem compare_key_ofInt (v w : Int32) :
    Ord.compare (Binary.ofInt .double v.toInt).key (Binary.ofInt .double w.toInt).key =
      Ord.compare v.toInt w.toInt := by
  have hv := natAbs_int32_lt v
  have hw := natAbs_int32_lt w
  rcases Int.lt_trichotomy v.toInt w.toInt with hlt | heq | hgt
  · rw [Int.compare_eq_lt.2 hlt, Int.compare_eq_lt]
    exact Binary.key_ofInt_lt hlt (by omega) (by omega)
  · rw [heq]
    simp
  · rw [Int.compare_eq_gt.2 hgt, Int.compare_eq_gt]
    exact Binary.key_ofInt_lt hgt (by omega) (by omega)

/-- A four-byte integer stays apart from all other integers. -/
theorem toInt_eq_of_key_eq {v : Int32} {i : Int}
    (h : (Binary.ofInt .double v.toInt).key = (Binary.ofInt .double i).key) : v.toInt = i := by
  have hv := natAbs_int32_lt v
  rcases Int.lt_trichotomy v.toInt i with hlt | heq | hgt
  · have hnext : (Binary.ofInt .double v.toInt).key < (Binary.ofInt .double (v.toInt + 1)).key :=
      Binary.key_ofInt_lt (by omega) (by omega) (by omega)
    have hle : (Binary.ofInt .double (v.toInt + 1)).key ≤ (Binary.ofInt .double i).key :=
      Binary.key_ofInt_le (by omega)
    omega
  · exact heq
  · have hprevious : (Binary.ofInt .double (v.toInt - 1)).key < (Binary.ofInt .double v.toInt).key :=
      Binary.key_ofInt_lt (by omega) (by omega) (by omega)
    have hle : (Binary.ofInt .double i).key ≤ (Binary.ofInt .double (v.toInt - 1)).key :=
      Binary.key_ofInt_le (by omega)
    omega

/-- Values that stay apart meet those of another column in their own order. -/
theorem meeting_of_strict (hstrict : Strict t u) (ha : a.fits t) (hb : b.fits t) :
    (a.meetingPlace t u).order (b.meetingPlace t u) = Ord.compare a b := by
  unfold meetingPlace
  rw [compare_eq_order ha hb]
  split
  · rfl
  rename_i hintegral
  rcases ha with rfl | ha
  · cases b <;> rfl
  rcases hb with rfl | hb
  · cases a <;> rfl
  cases a <;> cases b <;> simp only [type?, Option.some.injEq, reduceCtorEq] at ha hb <;>
    subst ha <;> try cases hb
  · exact compare_key_ofInt _ _
  · -- eight-byte integers stay apart from integers only
    rcases hstrict with hne | hu
    · exact absurd rfl hne
    · rw [hu] at hintegral
      exact absurd rfl hintegral
  all_goals rfl

/-- Meeting the values of another column keeps their order. -/
theorem meeting_mono (u : ColumnType) (ha : a.fits t) (hb : b.fits t)
    (hlt : Ord.compare a b = .lt) :
    (a.meetingPlace t u).order (b.meetingPlace t u) ≠ .gt := by
  by_cases hstrict : Strict t u
  · rw [meeting_of_strict hstrict ha hb, hlt]
    decide
  have hlong : t = .long := by simpa [Strict] using (not_or.1 hstrict).1
  have hnot : u.isIntegral = false := by simpa using (not_or.1 hstrict).2
  subst hlong
  rw [compare_eq_order ha hb] at hlt
  simp only [meetingPlace, hnot, Bool.and_false, Bool.false_eq_true, if_false]
  rcases ha with rfl | ha
  · cases b <;> exact nofun
  rcases hb with rfl | hb
  · cases a <;> cases hlt
  cases a <;> cases b <;> simp only [type?, Option.some.injEq, reduceCtorEq] at ha hb
  rename_i v w
  have hvw : v.toInt < w.toInt := Int.compare_eq_lt.1 hlt
  have hkeys := Binary.key_ofInt_le (Int.le_of_lt hvw)
  intro hgt
  exact absurd (Int.compare_eq_gt.1 hgt) (Int.not_lt.2 hkeys)

/-- Values that are the same meet those of another column alike. -/
theorem meeting_congr (u : ColumnType) (ha : a.fits t) (hb : b.fits t)
    (heq : Ord.compare a b = .eq) : a.meetingPlace t u = b.meetingPlace t u := by
  rw [compare_eq_order ha hb, Place.order_eq_iff] at heq
  unfold meetingPlace
  split
  · exact heq
  rcases ha with rfl | ha <;> rcases hb with rfl | hb
  · rfl
  · cases b <;> first | rfl | cases heq
  · cases a <;> first | rfl | cases heq
  cases a <;> cases b <;> simp only [type?, Option.some.injEq, reduceCtorEq] at ha hb <;>
    subst ha <;> try cases hb
  · exact congrArg (fun i => Place.number (Binary.ofInt .double i).key) (Place.number.inj heq)
  · exact congrArg (fun i => Place.number (Binary.ofInt .double i).key) (Place.number.inj heq)
  all_goals exact heq

/-! ## Walking two columns in step -/

variable {a' b' c : Entry}

theorem compare_swap (ha : a.fits t) (hb : b.fits u) :
    Ord.compare a b = (Ord.compare b a).swap := by
  rw [compare_eq_meeting ha hb, compare_eq_meeting hb ha, meetingPlace_comm u t b,
    meetingPlace_comm u t a]
  exact Std.OrientedCmp.eq_swap

/-- An entry that lies below one of another column lies below the entries after it. -/
theorem compare_gt_of_lt (ha : a.fits t) (hb : b.fits u) (hc : c.fits u)
    (hab : Ord.compare a b = .lt) (hbc : Ord.compare b c = .lt) : Ord.compare c a = .gt := by
  have hmono := meeting_mono t hb hc hbc
  rw [compare_eq_meeting ha hb] at hab
  rw [compare_eq_meeting hc ha, meetingPlace_comm u t a]
  rw [meetingPlace_comm u t b] at hmono
  exact Std.OrientedCmp.gt_of_lt
    (Std.TransCmp.lt_of_lt_of_isLE hab (Ordering.isLE_iff_ne_gt.2 hmono))

/-- Of two pairs of entries that are the same, one after the other, the later entry of one column
lies above the earlier one of the other: at most one of the columns brings values together. -/
theorem compare_gt_of_eq (ha : a.fits t) (ha' : a'.fits t) (hb : b.fits u) (hb' : b'.fits u)
    (hab : Ord.compare a b = .eq) (hab' : Ord.compare a' b' = .eq)
    (haa' : Ord.compare a a' = .lt) (hbb' : Ord.compare b b' = .lt) :
    Ord.compare a' b = .gt := by
  rw [compare_eq_meeting ha hb, Place.order_eq_iff] at hab
  rw [compare_eq_meeting ha' hb', Place.order_eq_iff] at hab'
  rw [compare_eq_meeting ha' hb]
  rcases strict_or t u with hstrict | hstrict
  · rw [← meeting_of_strict hstrict ha ha'] at haa'
    rw [← hab]
    exact Std.OrientedCmp.gt_of_lt haa'
  · rw [← meeting_of_strict hstrict hb hb', meetingPlace_comm u t b, meetingPlace_comm u t b'] at hbb'
    rw [hab']
    exact Std.OrientedCmp.gt_of_lt hbb'

/-! ## Comparing in a predicate -/

/-- Whether a predicate finds two entries equal. -/
def equates (a b : Entry) : Bool :=
  !(a.isNull || b.isNull) && a.roundedPlace.order b.roundedPlace == .eq

theorem equates_iff : a.equates b = true ↔
    a ≠ .null ∧ b ≠ .null ∧ a.roundedPlace = b.roundedPlace := by
  simp only [equates, Bool.and_eq_true, Bool.not_eq_true', Bool.or_eq_false_iff, beq_iff_eq,
    Place.order_eq_iff, and_assoc]
  cases a <;> cases b <;> simp [isNull]

theorem equates_comm (a b : Entry) : a.equates b = b.equates a := by
  rw [Bool.eq_iff_iff, equates_iff, equates_iff]
  exact ⟨fun h => ⟨h.2.1, h.1, h.2.2.symm⟩, fun h => ⟨h.2.1, h.1, h.2.2.symm⟩⟩

/-- Only null meets another column where null does. -/
theorem meetingPlace_eq_bottom_iff (t u : ColumnType) : a.meetingPlace t u = .bottom ↔ a = .null := by
  unfold meetingPlace
  split <;> cases a <;> simp [ownPlace, roundedPlace, number?]

/-- Entries that are the same to an index are the same after rounding. -/
theorem rounded_eq_of_meeting_eq (h : a.meetingPlace t u = b.meetingPlace t u) (ha : a.fits t)
    (hb : b.fits u) : a.roundedPlace = b.roundedPlace := by
  unfold meetingPlace at h
  split at h
  · rename_i hintegral
    rcases ha with rfl | ha <;> rcases hb with rfl | hb
    · rfl
    · cases b <;> simp_all [ownPlace, roundedPlace, number?]
    · cases a <;> simp_all [ownPlace, roundedPlace, number?]
    · cases a <;> cases b <;> simp only [type?, Option.some.injEq, reduceCtorEq] at ha hb <;>
        subst ha hb <;>
        simp_all [ColumnType.isIntegral, ownPlace, roundedPlace, number?]
  · exact h

/-- Unless rounding brings values of their columns together, entries that are the same after rounding
are the same to an index. -/
theorem meeting_eq_of_rounded_eq (hrounds : t.roundsWith u = false)
    (h : a.roundedPlace = b.roundedPlace) (ha : a.fits t) (hb : b.fits u) :
    a.meetingPlace t u = b.meetingPlace t u := by
  unfold meetingPlace
  split
  · rename_i hintegral
    rcases ha with rfl | ha <;> rcases hb with rfl | hb
    · rfl
    · cases b <;> simp_all [ownPlace, roundedPlace, number?]
    · cases a <;> simp_all [ownPlace, roundedPlace, number?]
    · cases a <;> cases b <;> simp only [type?, Option.some.injEq, reduceCtorEq] at ha hb <;>
        subst ha hb <;> try cases hintegral
      · exact congrArg Place.number (toInt_eq_of_key_eq (Place.number.inj h))
      · exact congrArg Place.number (toInt_eq_of_key_eq (Place.number.inj h))
      · exact congrArg Place.number (toInt_eq_of_key_eq (Place.number.inj h).symm).symm
      · cases hrounds
  · exact h

end Entry

/-- How a predicate compares the entries of two columns that both hold numbers or both hold texts. -/
theorem Scalar.compare_ofEntry {t u : ColumnType} {a b : Entry} (ha : a.fits t) (hb : b.fits u)
    (hkind : t.isNumeric = u.isNumeric) :
    (Scalar.ofEntry a t).compare (Scalar.ofEntry b u) =
      .ok (if a.isNull || b.isNull then none else some (a.roundedPlace.order b.roundedPlace)) := by
  rcases ha with rfl | ha
  · rfl
  rcases hb with rfl | hb
  · cases a <;> simp [Entry.type?] at ha <;> subst ha <;> rfl
  cases a <;> cases b <;>
    simp only [Entry.type?, Option.some.injEq, reduceCtorEq] at ha hb <;>
    subst ha hb <;> first | rfl | cases hkind

end PageDb
