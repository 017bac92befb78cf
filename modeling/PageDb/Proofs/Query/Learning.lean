import PageDb.Query.Predicate
import PageDb.Proofs.Action
import Mathlib.Data.List.Forall2

/-!
Learning what is behind a null.

A null stands for a value that is not known, and a comparison with one is not decided.  When some
nulls of a row are replaced by values, what was decided before stays as it is: each side of a
comparison keeps the value it had, and `and` and `or` only answer where the branches that are not
decided cannot matter.
-/

namespace PageDb

namespace Truth

variable {a a' b b' : Truth}

/-- The second value agrees with the first wherever that one is decided. -/
def Below (a b : Truth) : Prop := a = .unknown ∨ a = b

theorem Below.refl (a : Truth) : a.Below a := .inr rfl

theorem Below.eq (h : a.Below b) (ha : a ≠ .unknown) : b = a :=
  (h.resolve_left ha).symm

theorem Below.and (ha : a.Below a') (hb : b.Below b') : (a.and b).Below (a'.and b') := by
  obtain rfl | rfl := ha
  · -- One side is not decided, so only a `no` on the other side decides the answer.
    obtain rfl | rfl := hb
    · exact .inl rfl
    · cases b
      case no => cases a' <;> exact .inr rfl
      all_goals exact .inl rfl
  · obtain rfl | rfl := hb
    · cases a
      case no => exact .inr rfl
      all_goals exact .inl rfl
    · exact .refl _

theorem Below.or (ha : a.Below a') (hb : b.Below b') : (a.or b).Below (a'.or b') := by
  obtain rfl | rfl := ha
  · -- Here it is a `yes` on the other side that decides.
    obtain rfl | rfl := hb
    · exact .inl rfl
    · cases b
      case yes => cases a' <;> exact .inr rfl
      all_goals exact .inl rfl
  · obtain rfl | rfl := hb
    · cases a
      case yes => exact .inr rfl
      all_goals exact .inl rfl
    · exact .refl _

end Truth

namespace Scalar

variable {x x' y y' : Scalar}

/-- The second value is the first one, if that one is known. -/
def Below (x y : Scalar) : Prop := x = .unknown ∨ x = y

theorem compare_unknown_left (y : Scalar) : Scalar.compare .unknown y = .ok none := rfl

theorem compare_unknown_right (x : Scalar) : x.compare .unknown = .ok none := by
  cases x <;> rfl

/-- A comparison of values that are known better answers the same, if it was decided. -/
theorem compare_of_below (hx : x.Below x') (hy : y.Below y') {o : Option Ordering}
    (hcompare : x'.compare y' = .ok o) :
    x.compare y = .ok none ∨ x.compare y = .ok o := by
  obtain rfl | rfl := hx
  · exact .inl (compare_unknown_left y)
  · obtain rfl | rfl := hy
    · exact .inl (compare_unknown_right x)
    · exact .inr hcompare

end Scalar

namespace JointRow

variable {r s : JointRow} {name : String}

/-- Some nulls of the first row are values in the second.  Neither row has to fit the schemas. -/
structure Learns (r s : JointRow) : Prop where
  headings : s.headings = r.headings
  entries : List.Forall₂ (fun old new => old = .null ∨ new = old) r.entries s.entries

theorem Learns.entryAt (h : r.Learns s) (offset : Nat) :
    r.entryAt offset = .null ∨ s.entryAt offset = r.entryAt offset := by
  obtain ⟨hlength, hentries⟩ := List.forall₂_iff_get.1 h.entries
  unfold JointRow.entryAt
  by_cases hlt : offset < r.entries.length
  · have hlt' : offset < s.entries.length := hlength ▸ hlt
    simpa [hlt, hlt'] using hentries offset hlt hlt'
  · left
    simp [List.getElem?_eq_none (Nat.le_of_not_lt hlt)]

/-- A name finds the same column in both rows. -/
theorem Learns.lookup (h : r.Learns s) {new : Entry} {type : ColumnType}
    (hs : s.lookup name = .ok (new, type)) :
    ∃ old, r.lookup name = .ok (old, type) ∧ (old = .null ∨ new = old) := by
  obtain ⟨ref, hresolve, hnew⟩ := Result.bind_eq_ok.1 hs
  obtain ⟨rfl, rfl⟩ : s.entryAt ref.offset = new ∧ ref.type = type := by
    simpa [pure, Except.pure] using hnew
  refine ⟨r.entryAt ref.offset, ?_, h.entryAt ref.offset⟩
  rw [h.headings] at hresolve
  exact Result.bind_eq_ok.2 ⟨ref, hresolve, rfl⟩

end JointRow

section Learning

variable {r s : JointRow}

/-- An operand that has a value for the later row had that value before, or none. -/
theorem Operand.value_of_learns (h : r.Learns s) {o : Operand} {y : Scalar}
    (hs : o.value (some s) = .ok y) :
    ∃ x, o.value (some r) = .ok x ∧ x.Below y := by
  cases o with
  | column name =>
    obtain ⟨⟨new, type⟩, hlookup, hvalue⟩ := Result.bind_eq_ok.1 hs
    obtain rfl : Scalar.ofEntry new type = y := by simpa [pure, Except.pure] using hvalue
    obtain ⟨old, hold, hlearned⟩ := h.lookup hlookup
    refine ⟨Scalar.ofEntry old type, Result.bind_eq_ok.2 ⟨_, hold, rfl⟩, ?_⟩
    obtain rfl | rfl := hlearned
    · exact .inl rfl
    · exact .inr rfl
  | number value => exact ⟨y, hs, .inr rfl⟩
  | text value => exact ⟨y, hs, .inr rfl⟩
  | null => exact ⟨y, hs, .inr rfl⟩

theorem Comparison.evaluate_below (h : r.Learns s) {c : Comparison} {b : Truth}
    (hs : c.evaluate (some s) = .ok b) :
    ∃ a, c.evaluate (some r) = .ok a ∧ a.Below b := by
  obtain ⟨x', hx', hs⟩ := Result.bind_eq_ok.1 hs
  obtain ⟨y', hy', hs⟩ := Result.bind_eq_ok.1 hs
  obtain ⟨o, hcompare', hanswer⟩ := Result.bind_eq_ok.1 hs
  obtain ⟨x, hx, hxx'⟩ := Operand.value_of_learns h hx'
  obtain ⟨y, hy, hyy'⟩ := Operand.value_of_learns h hy'
  unfold Comparison.evaluate
  rw [hx, hy, Result.ok_bind, Result.ok_bind]
  obtain hcompare | hcompare := Scalar.compare_of_below hxx' hyy' hcompare'
  · rw [hcompare]
    exact ⟨.unknown, rfl, .inl rfl⟩
  · rw [hcompare]
    exact ⟨b, hanswer, .refl b⟩

/-- Two branches that say no more than before say no more together. -/
theorem Truth.below_of_branches {f : Truth → Truth → Truth}
    (hf : ∀ {al ar bl br : Truth}, al.Below bl → ar.Below br → (f al ar).Below (f bl br))
    {left right left' right' : Result Truth}
    (hleft : ∀ {bl}, left' = .ok bl → ∃ al, left = .ok al ∧ al.Below bl)
    (hright : ∀ {br}, right' = .ok br → ∃ ar, right = .ok ar ∧ ar.Below br) {b : Truth}
    (hs : (do return f (← left') (← right')) = (.ok b : Result Truth)) :
    ∃ a, (do return f (← left) (← right)) = (.ok a : Result Truth) ∧ a.Below b := by
  obtain ⟨bl, hl, hs⟩ := Result.bind_eq_ok.1 hs
  obtain ⟨br, hr, hboth⟩ := Result.bind_eq_ok.1 hs
  obtain rfl : f bl br = b := by simpa [pure, Except.pure] using hboth
  obtain ⟨al, hal, hbelowl⟩ := hleft hl
  obtain ⟨ar, har, hbelowr⟩ := hright hr
  refine ⟨f al ar, ?_, hf hbelowl hbelowr⟩
  rw [hal, har]
  rfl

/-- A predicate that can be evaluated once values are known can be evaluated without them, and
says no more there.  Values that are learned may make the evaluation fail, but never mend it. -/
theorem Predicate.evaluate_below (h : r.Learns s) {p : Predicate} {b : Truth}
    (hs : p.evaluate (some s) = .ok b) :
    ∃ a, p.evaluate (some r) = .ok a ∧ a.Below b := by
  induction p generalizing b with
  | always => exact ⟨b, hs, .refl b⟩
  | compare c => exact c.evaluate_below h hs
  | and left right ihl ihr => exact Truth.below_of_branches Truth.Below.and ihl ihr hs
  | or left right ihl ihr => exact Truth.below_of_branches Truth.Below.or ihl ihr hs

/-- A row that is accepted is still accepted when more of it is known. -/
theorem Predicate.accepts_of_learns (h : r.Learns s) {p : Option Predicate} {accepted : Bool}
    (hr : Predicate.accepts p r = .ok true) (hs : Predicate.accepts p s = .ok accepted) :
    accepted = true := by
  cases p with
  | none => simpa [Predicate.accepts] using hs.symm
  | some p =>
    obtain ⟨b, hb, hs⟩ := Result.bind_eq_ok.1 hs
    obtain ⟨a, ha, hbelow⟩ := Predicate.evaluate_below h hb
    obtain ⟨a', ha', hr⟩ := Result.bind_eq_ok.1 hr
    obtain rfl : a = a' := by simpa [ha] using ha'
    have hyes : a.isTrue = true := by simpa [pure, Except.pure] using hr
    have hdecided : a ≠ .unknown := by
      rintro rfl
      exact Bool.noConfusion hyes
    rw [hbelow.eq hdecided, hyes] at hs
    simpa [pure, Except.pure] using hs.symm

/-- A predicate that is decided for a row is decided alike once values are learned for some nulls
of the row, unless one of those values cannot be compared. -/
theorem Predicate.evaluate_of_learns {p : Predicate} {b : Truth} (h : r.Learns s)
    (hs : p.evaluate (some s) = .ok b) :
    ∃ a, p.evaluate (some r) = .ok a ∧ (a ≠ .unknown → b = a) := by
  obtain ⟨a, hr, hbelow⟩ := Predicate.evaluate_below h hs
  exact ⟨a, hr, hbelow.eq⟩

end Learning

/-- A pet whose age may not be known, next to an owner whose city may not be known. -/
def petAndOwner (age city : Entry) : JointRow :=
  ⟨[⟨"pets", ⟨[⟨"id", .int, true, true, none⟩, ⟨"age", .int, false, false, none⟩], 0⟩⟩,
      ⟨"owners", ⟨[⟨"id", .int, true, true, none⟩, ⟨"city", .text, false, false, none⟩], 0⟩⟩],
    [.int 1, age, .int 2, city]⟩

/-- Different pet and owner, and an age of at least three or a null city. -/
def differentAndOld : Predicate :=
  .and (.compare ⟨.column "pets.id", .ne, .column "owners.id"⟩)
    (.or (.and .always (.compare ⟨.column "age", .ge, .number (.ofInt .double 3)⟩))
      (.compare ⟨.column "city", .eq, .null⟩))

theorem differentAndOld_of_learns :
    (petAndOwner (.int 4) .null).Learns (petAndOwner (.int 4) (.text "Bern")) ∧
      differentAndOld.evaluate (some (petAndOwner (.int 4) (.text "Bern"))) = .ok .yes ∧
      differentAndOld.evaluate (some (petAndOwner .null (.text "Bern"))) = .ok .unknown ∧
      ∃ a, differentAndOld.evaluate (some (petAndOwner (.int 4) .null)) = .ok a ∧
        (a ≠ .unknown → .yes = a) := by
  have hlearns : (petAndOwner (.int 4) .null).Learns (petAndOwner (.int 4) (.text "Bern")) :=
    ⟨rfl, by simp [petAndOwner]⟩
  have hyes : differentAndOld.evaluate (some (petAndOwner (.int 4) (.text "Bern"))) = .ok .yes := by
    decide +kernel
  exact ⟨hlearns, hyes, by decide +kernel, Predicate.evaluate_of_learns hlearns hyes⟩

end PageDb
