/-!
Maps kept as lists of bindings in ascending key order.

A key is found by walking the bindings from the left until one is not smaller.  Two keys that
compare as equal are one key; the map keeps the one that came first.  `SortedMap.toList` is the
view through which the operations are described.
-/

namespace PageDb

/-- Bindings in ascending key order. -/
structure SortedMap (κ ν : Type) where
  toList : List (κ × ν) := []
deriving DecidableEq, Repr

namespace SortedMap

variable {κ ν ω : Type}

instance : Inhabited (SortedMap κ ν) := ⟨{}⟩

instance : EmptyCollection (SortedMap κ ν) := ⟨{}⟩

@[simp] theorem toList_empty : (∅ : SortedMap κ ν).toList = [] := rfl

/-- The keys in ascending order. -/
def keys (m : SortedMap κ ν) : List κ := m.toList.map Prod.fst

/-- The values in key order. -/
def values (m : SortedMap κ ν) : List ν := m.toList.map Prod.snd

/-- The number of bindings. -/
def size (m : SortedMap κ ν) : Nat := m.toList.length

/-- Whether there is no binding. -/
def isEmpty (m : SortedMap κ ν) : Bool := m.toList.isEmpty

/-- Changes every value. -/
def mapValues (f : ν → ω) (m : SortedMap κ ν) : SortedMap κ ω :=
  ⟨m.toList.map fun (k, v) => (k, f v)⟩

variable [Ord κ]

/-- The binding of a key in a list of bindings. -/
def find? (key : κ) : List (κ × ν) → Option (κ × ν)
  | [] => none
  | (k, v) :: rest =>
    match compare key k with
    | .lt => none
    | .eq => some (k, v)
    | .gt => find? key rest

/-- Binds a key in a list of bindings; a key that is there already keeps its spelling. -/
def insertInto (key : κ) (value : ν) : List (κ × ν) → List (κ × ν)
  | [] => [(key, value)]
  | (k, v) :: rest =>
    match compare key k with
    | .lt => (key, value) :: (k, v) :: rest
    | .eq => (k, value) :: rest
    | .gt => (k, v) :: insertInto key value rest

/-- Removes the binding of a key from a list of bindings. -/
def eraseFrom (key : κ) : List (κ × ν) → List (κ × ν)
  | [] => []
  | (k, v) :: rest =>
    match compare key k with
    | .lt => (k, v) :: rest
    | .eq => rest
    | .gt => (k, v) :: eraseFrom key rest

/-- Changes the value of a key in a list of bindings. -/
def modifyIn (key : κ) (f : ν → ν) : List (κ × ν) → List (κ × ν)
  | [] => []
  | (k, v) :: rest =>
    match compare key k with
    | .lt => (k, v) :: rest
    | .eq => (k, f v) :: rest
    | .gt => (k, v) :: modifyIn key f rest

/-- The first key of a list of bindings that is greater than the given one. -/
def keyAfter? (key : κ) : List (κ × ν) → Option κ
  | [] => none
  | (k, _) :: rest =>
    match compare key k with
    | .lt => some k
    | .eq => rest.head?.map Prod.fst
    | .gt => keyAfter? key rest

/-- The value of a key. -/
def get? (m : SortedMap κ ν) (key : κ) : Option ν := (find? key m.toList).map Prod.snd

/-- The key as the map spells it. -/
def getKey? (m : SortedMap κ ν) (key : κ) : Option κ := (find? key m.toList).map Prod.fst

/-- Whether the key is bound. -/
def contains (m : SortedMap κ ν) (key : κ) : Bool := (m.get? key).isSome

/-- Binds a key, in place of its old value if it has one. -/
def insert (m : SortedMap κ ν) (key : κ) (value : ν) : SortedMap κ ν :=
  ⟨insertInto key value m.toList⟩

/-- Removes a key. -/
def erase (m : SortedMap κ ν) (key : κ) : SortedMap κ ν := ⟨eraseFrom key m.toList⟩

/-- Changes the value of a key that is bound. -/
def modify (m : SortedMap κ ν) (key : κ) (f : ν → ν) : SortedMap κ ν :=
  ⟨modifyIn key f m.toList⟩

/-- The smallest key, or the smallest one greater than `after`. -/
def nextKey? (m : SortedMap κ ν) (after : Option κ) : Option κ :=
  match after with
  | none => m.toList.head?.map Prod.fst
  | some key => keyAfter? key m.toList

/-- Binds the pairs one after the other. -/
def ofList (pairs : List (κ × ν)) : SortedMap κ ν :=
  pairs.foldl (fun m (k, v) => m.insert k v) ∅

@[simp] theorem toList_insert (m : SortedMap κ ν) (key : κ) (value : ν) :
    (m.insert key value).toList = insertInto key value m.toList := rfl

@[simp] theorem toList_erase (m : SortedMap κ ν) (key : κ) :
    (m.erase key).toList = eraseFrom key m.toList := rfl

@[simp] theorem toList_modify (m : SortedMap κ ν) (key : κ) (f : ν → ν) :
    (m.modify key f).toList = modifyIn key f m.toList := rfl

/-- Changing a value changes no key. -/
theorem keys_modify (m : SortedMap κ ν) (key : κ) (f : ν → ν) :
    (m.modify key f).keys = m.keys := by
  have map_fst_modifyIn (bindings : List (κ × ν)) :
      (modifyIn key f bindings).map Prod.fst = bindings.map Prod.fst := by
    induction bindings with
    | nil => rfl
    | cons b rest ih =>
      obtain ⟨k, v⟩ := b
      simp only [modifyIn]
      cases compare key k with
      | lt => rfl
      | eq => rfl
      | gt => simp [ih]
  exact map_fst_modifyIn m.toList

@[simp] theorem get?_empty (key : κ) : (∅ : SortedMap κ ν).get? key = none := rfl

theorem contains_eq_isSome_get? (m : SortedMap κ ν) (key : κ) :
    m.contains key = (m.get? key).isSome := rfl

/-! ## Reading back what was written -/

theorem find?_insertInto_self [Std.ReflOrd κ] (key : κ) (value : ν) (bindings : List (κ × ν)) :
    (find? key (insertInto key value bindings)).map Prod.snd = some value := by
  induction bindings with
  | nil => simp [insertInto, find?, Std.ReflCmp.compare_self]
  | cons b rest ih =>
    obtain ⟨k, v⟩ := b
    simp only [insertInto]
    cases h : compare key k with
    | lt => simp [find?, Std.ReflCmp.compare_self]
    | eq => simp [find?, h]
    | gt => simpa [find?, h] using ih

theorem find?_insertInto_of_ne [Std.TransOrd κ] {key other : κ} (value : ν)
    (hne : compare other key ≠ .eq) (bindings : List (κ × ν)) :
    find? other (insertInto key value bindings) = find? other bindings := by
  induction bindings with
  | nil =>
    simp only [insertInto, find?]
    cases h : compare other key with
    | lt => rfl
    | eq => exact absurd h hne
    | gt => rfl
  | cons b rest ih =>
    obtain ⟨k, v⟩ := b
    simp only [insertInto]
    cases h : compare key k with
    | lt =>
      cases ho : compare other key with
      | lt => simp [find?, ho, Std.TransCmp.lt_trans ho h]
      | eq => exact absurd ho hne
      | gt => simp [find?, ho]
    | eq =>
      cases ho : compare other k with
      | lt => simp [find?, ho]
      | eq => exact absurd (Std.TransCmp.eq_trans ho (Std.OrientedCmp.eq_symm h)) hne
      | gt => simp [find?, ho]
    | gt => simp [find?, ih]

theorem get?_insert_self [Std.ReflOrd κ] (m : SortedMap κ ν) (key : κ) (value : ν) :
    (m.insert key value).get? key = some value :=
  find?_insertInto_self key value m.toList

theorem get?_insert_of_ne [Std.TransOrd κ] (m : SortedMap κ ν) {key other : κ} (value : ν)
    (hne : compare other key ≠ .eq) : (m.insert key value).get? other = m.get? other :=
  congrArg (Option.map Prod.snd) (find?_insertInto_of_ne value hne m.toList)

end SortedMap

end PageDb
