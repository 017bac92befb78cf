import PageDb.Entry.Basic

/-!
The order of entries.

Null comes first, then numbers of every width, then text.  Two integers compare exactly; any other
two numbers compare by their place in the total order of eight-byte words; texts compare by code
points.  Two entries that compare as equal are the *same* key, whatever their types.
-/

namespace PageDb

namespace Entry

/-- The sort class: null, then numbers, then text. -/
def rank : Entry → Nat
  | .null => 0
  | .text _ => 2
  | _ => 1

/-- How two entries compare. -/
def compare (a b : Entry) : Ordering :=
  match a, b with
  | .text s, .text t => Ord.compare s t
  | a, b =>
    match a.integer?, b.integer? with
    | some i, some j => Ord.compare i j
    | _, _ =>
      match a.number?, b.number? with
      | some x, some y => Ord.compare x.key y.key
      | _, _ => Ord.compare a.rank b.rank

instance : Ord Entry := ⟨compare⟩

/-- Whether two entries are the same key. -/
def same (a b : Entry) : Bool := compare a b == .eq

/-- Puts an entry on top of a pile that is in order from its bottom: above the topmost entry that it
does not precede. -/
def place (e : Entry) : List Entry → List Entry
  | [] => [e]
  | top :: rest => if compare e top = .lt then top :: place e rest else e :: top :: rest

/-- The entries in ascending order; entries that compare as equal keep their order. -/
def sort (entries : List Entry) : List Entry :=
  (entries.foldl (fun pile e => place e pile) []).reverse

theorem place_perm (e : Entry) (pile : List Entry) : (place e pile).Perm (e :: pile) := by
  induction pile with
  | nil => exact .refl _
  | cons top rest ih =>
    unfold place
    split
    · exact (ih.cons top).trans (.swap e top rest)
    · exact .refl _

/-- Sorting keeps every entry, as often as it was there. -/
theorem sort_perm (entries : List Entry) : (sort entries).Perm entries := by
  have foldl_perm (pile : List Entry) :
      (entries.foldl (fun pile e => place e pile) pile).Perm (entries ++ pile) := by
    induction entries generalizing pile with
    | nil => exact .refl _
    | cons e rest ih =>
      refine (ih (place e pile)).trans ?_
      exact ((place_perm e pile).append_left rest).trans List.perm_middle
  exact (List.reverse_perm _).trans (by simpa using foldl_perm [])

end Entry

end PageDb
