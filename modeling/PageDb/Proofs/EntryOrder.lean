import PageDb.Entry.Order
import PageDb.Proofs.SortedMap

/-!
The order of the entries of one column.

Between entries of several numeric types `Entry.compare` is no order: an eight-byte integer may
round to the same number as its neighbour.  The values of one column, with null among them, are
totally preordered: null lies below all of them, and the others compare by one number or text each.
-/

namespace PageDb

namespace Entry

/-- Whether the entry is null or a value of the type. -/
def fits (t : ColumnType) (e : Entry) : Prop := e = .null ∨ e.type? = some t

instance (t : ColumnType) (e : Entry) : Decidable (e.fits t) :=
  inferInstanceAs (Decidable (_ ∨ _))

/-- What a value compares by among the values of its column. -/
inductive Place where
  | bottom
  | number (n : Int)
  | text (s : String)

/-- Null first, then numbers, then texts. -/
def Place.rank : Place → Nat
  | .bottom => 0
  | .number _ => 1
  | .text _ => 2

/-- How two places compare. -/
def Place.order : Place → Place → Ordering
  | .number m, .number n => Ord.compare m n
  | .text s, .text t => Ord.compare s t
  | a, b => Ord.compare a.rank b.rank

instance : Std.TransCmp Place.order where
  eq_swap {a b} := by
    cases a <;> cases b
    case number.number => exact Std.OrientedOrd.eq_swap (α := Int)
    case text.text => exact Std.OrientedOrd.eq_swap (α := String)
    all_goals rfl
  isLE_trans {a b c} hab hbc := by
    cases a <;> cases b <;> cases c
    case number.number.number => exact Std.TransOrd.isLE_trans (α := Int) hab hbc
    case text.text.text => exact Std.TransOrd.isLE_trans (α := String) hab hbc
    all_goals first | rfl | exact Bool.noConfusion hab | exact Bool.noConfusion hbc

/-- The place of an entry among the values of its own type. -/
def ownPlace : Entry → Place
  | .null => .bottom
  | .int v => .number v.toInt
  | .long v => .number v.toInt
  | .float x => .number (x.convert .double).key
  | .double x => .number x.key
  | .text s => .text s

theorem compare_eq_order {t : ColumnType} {a b : Entry} (ha : a.fits t) (hb : b.fits t) :
    Ord.compare a b = a.ownPlace.order b.ownPlace := by
  rcases ha with rfl | ha
  · cases b <;> rfl
  rcases hb with rfl | hb
  · cases a <;> rfl
  cases a <;> cases b <;>
    simp only [type?, Option.some.injEq, reduceCtorEq] at ha hb <;>
    subst ha <;> first | rfl | cases hb

/-- Among the values of one column, comparison is an order. -/
theorem orderedOn_fits (t : ColumnType) : SortedMap.OrderedOn (Entry.fits t) where
  eq_swap {a b} := by
    rw [compare_eq_order a.2 b.2, compare_eq_order b.2 a.2]
    exact Std.OrientedCmp.eq_swap
  isLE_trans {a b c} hab hbc := by
    rw [compare_eq_order a.2 b.2] at hab
    rw [compare_eq_order b.2 c.2] at hbc
    rw [compare_eq_order a.2 c.2]
    exact Std.TransCmp.isLE_trans hab hbc

/-! ## The same key -/

theorem same_iff {a b : Entry} : a.same b = true ↔ Ord.compare a b = .eq := by
  simp [same, Ord.compare]

theorem same_eq_false_iff {a b : Entry} : a.same b = false ↔ Ord.compare a b ≠ .eq := by
  rw [← Bool.not_eq_true, same_iff]

variable {t : ColumnType} {a b c : Entry}

theorem same_refl (ha : a.fits t) : a.same a = true :=
  same_iff.2 ((orderedOn_fits t).refl ha)

theorem same_comm (ha : a.fits t) (hb : b.fits t) : a.same b = b.same a := by
  rw [Bool.eq_iff_iff, same_iff, same_iff]
  exact ⟨(orderedOn_fits t).symm ha hb, (orderedOn_fits t).symm hb ha⟩

theorem same_congr_left (ha : a.fits t) (hb : b.fits t) (hc : c.fits t) (hab : a.same b = true) :
    a.same c = b.same c := by
  rw [Bool.eq_iff_iff, same_iff, same_iff, (orderedOn_fits t).congr_left ha hb hc (same_iff.1 hab)]

theorem same_congr_right (ha : a.fits t) (hb : b.fits t) (hc : c.fits t) (hbc : b.same c = true) :
    a.same b = a.same c := by
  rw [Bool.eq_iff_iff, same_iff, same_iff, (orderedOn_fits t).congr_right ha hb hc (same_iff.1 hbc)]

/-- A key is not found after another one has been added if the two differ and it was not found
before. -/
theorem get?_insert_eq_none_iff {ν : Type} {m : SortedMap Entry ν} (hm : m.Ascending (Entry.fits t))
    (ha : a.fits t) (hb : b.fits t) (value : ν) :
    (m.insert a value).get? b = none ↔ a.same b = false ∧ m.get? b = none := by
  rw [SortedMap.get?_insert (orderedOn_fits t) hm ha hb, same_comm ha hb, same_eq_false_iff]
  split <;> simp [*]

end Entry

end PageDb
