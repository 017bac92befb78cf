import PageDb.Store.Basic

/-!
Settings that every store of an engine shares.
-/

namespace PageDb

/-- Where page files live, how many bytes a page holds and how many pages a table keeps in
memory. -/
structure Config where
  directory : String := "data"
  budget : Nat := 2048
  cap : Nat := 1000
deriving DecidableEq, Repr

namespace Config

/-- The settings with another directory. -/
def withDirectory (c : Config) (directory : String) : Config := { c with directory := directory }

/-- The settings with another byte budget. -/
def withBudget (c : Config) (budget : Nat) : Config := { c with budget := budget }

/-- The settings with another number of resident pages.  At least one page stays in memory. -/
def withCap (c : Config) (cap : Nat) : Config := { c with cap := max cap 1 }

/-- An empty store with these settings. -/
def newStore (c : Config) (database table : String) : Store :=
  { database := database, table := table, budget := c.budget, cap := c.cap }

end Config

end PageDb
