import PageDb.Entry.Order

/-!
Pages: groups of rows that are written and evicted together.  A page in memory lists the keys of
its rows in the order they came and counts the bytes of their texts.
-/

namespace PageDb

/-- A page in memory. -/
structure Page where
  number : Nat
  /-- The bytes its rows count against the budget. -/
  size : Nat := 0
  keys : List Entry := []
  /-- The clock reading of its last visit. -/
  lastVisit : Nat := 0
  /-- Whether it differs from its file. -/
  dirty : Bool := false
  /-- Whether it must stay in memory. -/
  pinned : Bool := false
deriving DecidableEq

namespace Page

/-- Whether a row of `size` bytes still fits. -/
def fits (p : Page) (size budget : Nat) : Bool := decide (p.size + size ≤ budget)

/-- Whether the page lists a key. -/
def lists (p : Page) (key : Entry) : Bool := p.keys.any fun k => k.same key

/-- Replaces the first key that is the same as `key`, if there is one. -/
def replaceFirst (key new : Entry) : List Entry → Option (List Entry)
  | [] => none
  | k :: rest =>
    if k.same key then some (new :: rest) else (replaceFirst key new rest).map (k :: ·)

/-- Removes the first key that is the same as `key`, if there is one. -/
def removeFirst (key : Entry) : List Entry → Option (List Entry)
  | [] => none
  | k :: rest => if k.same key then some rest else (removeFirst key rest).map (k :: ·)

/-- Adds a row. -/
def add (p : Page) (key : Entry) (size : Nat) : Page :=
  { p with keys := p.keys ++ [key], size := p.size + size }

/-- Removes a row; a key that is not listed changes nothing. -/
def remove (p : Page) (key : Entry) (size : Nat) : Page :=
  match removeFirst key p.keys with
  | some keys => { p with keys := keys, size := p.size - size }
  | none => p

/-- Exchanges the size of a row. -/
def resize (p : Page) (old new : Nat) : Page := { p with size := p.size - old + new }

/-- Gives a row another key and size; a key that is not listed is added. -/
def rename (p : Page) (key new : Entry) (oldSize newSize : Nat) : Page :=
  let keys := (replaceFirst key new p.keys).getD (p.keys ++ [new])
  resize { p with keys := keys } oldSize newSize

/-- The page after its rows changed. -/
def touched (p : Page) : Page := { p with dirty := true }

end Page

end PageDb
