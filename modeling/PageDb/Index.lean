import PageDb.Entry.Order
import PageDb.Error
import PageDb.SortedMap

/-!
Indexes: sorted maps from keys, with an error for every key that is missing or already there.
-/

namespace PageDb

/-- A map from keys in key order. -/
abbrev Index (ν : Type) := SortedMap Entry ν

namespace Index

variable {ν : Type}

/-- Adds a key that must be new. -/
def put (m : Index ν) (key : Entry) (value : ν) : Result (Index ν) :=
  match m.getKey? key with
  | some present => .error (.duplicateKey present)
  | none => .ok (m.insert key value)

/-- The value of a key that must be there. -/
def fetch (m : Index ν) (key : Entry) : Result ν :=
  match m.get? key with
  | some value => .ok value
  | none => .error (.keyNotFound key)

/-- Removes a key that must be there; the answer is its value. -/
def take (m : Index ν) (key : Entry) : Result (ν × Index ν) :=
  match m.get? key with
  | some value => .ok (value, m.erase key)
  | none => .error (.keyNotFound key)

/-- Gives a key that must be there another value; the answer is its old one. -/
def exchange (m : Index ν) (key : Entry) (value : ν) : Result (ν × Index ν) :=
  match m.get? key with
  | some old => .ok (old, m.modify key fun _ => value)
  | none => .error (.keyNotFound key)

end Index

end PageDb
