import PageDb.SortedMap

/-!
The choice of the page to evict: the one whose last visit is the longest ago, among those that may
be evicted at all.
-/

namespace PageDb

/-- The last visit to a page, and whether the page may be evicted. -/
structure Visit where
  stamp : Nat
  evictable : Bool
deriving DecidableEq, Repr

/-- The visits to all known pages.  Stamps come from a clock that never goes back. -/
structure Replacer where
  clock : Nat := 0
  visits : SortedMap Nat Visit := ∅
  /-- The number of pages that may be evicted. -/
  evictable : Nat := 0
deriving DecidableEq, Repr

namespace Replacer

/-- Records a visit; a page seen for the first time may be evicted. -/
def visit (r : Replacer) (page : Nat) : Replacer :=
  let now := r.clock + 1
  match r.visits.get? page with
  | some known =>
    { r with clock := now, visits := r.visits.insert page { known with stamp := now } }
  | none =>
    { clock := now
      visits := r.visits.insert page { stamp := now, evictable := true }
      evictable := r.evictable + 1 }

/-- The earlier of two visited pages. -/
def earlier (a : Nat × Visit) : Option (Nat × Visit) → Nat × Visit
  | some b => if b.2.stamp < a.2.stamp then b else a
  | none => a

/-- The page with the smallest stamp among those that may be evicted. -/
def oldest? : List (Nat × Visit) → Option (Nat × Visit)
  | [] => none
  | v :: rest => if v.2.evictable then some (earlier v (oldest? rest)) else oldest? rest

/-- The page to evict, if one may be. -/
def victim? (r : Replacer) : Option Nat :=
  if r.evictable = 0 then none else (oldest? r.visits.toList).map Prod.fst

/-- Says whether a known page may be evicted. -/
def setEvictable (r : Replacer) (page : Nat) (evictable : Bool) : Replacer :=
  match r.visits.get? page with
  | some known =>
    if known.evictable = evictable then r
    else
      { r with
        visits := r.visits.insert page { known with evictable := evictable }
        evictable := if evictable then r.evictable + 1 else r.evictable - 1 }
  | none => r

/-- Forgets a page. -/
def remove (r : Replacer) (page : Nat) : Replacer :=
  match r.visits.get? page with
  | some known =>
    { r with
      visits := r.visits.erase page
      evictable := if known.evictable then r.evictable - 1 else r.evictable }
  | none => r

/-- Forgets every page; the clock keeps its reading. -/
def clear (r : Replacer) : Replacer := { r with visits := ∅, evictable := 0 }

end Replacer

end PageDb
