import PageDb.Number.Literal

/-!
The names of page files: `page#_#database#_#table#_#number.data`.
-/

namespace PageDb

namespace PageFile

/-- What separates the parts of a name. -/
def separator : String := "#_#"

/-- What every name ends with. -/
def ending : String := ".data"

/-- What the names of all pages of a table begin with. -/
def tableStem (database table : String) : String :=
  "page" ++ separator ++ database ++ separator ++ table ++ separator

/-- The name of the file of a page. -/
def name (database table : String) (page : Nat) : String :=
  tableStem database table ++ toString page ++ ending

/-- The text without `stem` in front, if it begins with it. -/
def dropStem? (stem cs : List Char) : Option (List Char) :=
  if cs.take stem.length = stem then some (cs.drop stem.length) else none

/-- The text without `ending` behind, if it ends with it. -/
def dropEnding? (ending cs : List Char) : Option (List Char) :=
  (dropStem? ending.reverse cs.reverse).map List.reverse

/-- Every page number is below this one, which takes more than four bytes. -/
def numberLimit : Nat := 4294967296

/-- The page number in a file name of the table.  It is any numeral below the limit, also one with a
plus sign or leading zeros, so several names may have the same number. -/
def number? (database table file : String) : Option Nat := do
  let rest ← dropStem? (tableStem database table).toList file.toList
  let numeral ← dropEnding? ending.toList rest
  Literal.naturalBelow? numberLimit numeral

/-- The name a file is written under before it is renamed: the last extension of its last part
becomes `tmp`.  A leading dot does not begin an extension. -/
def temporary (file : String) : String :=
  let backwards := file.toList.reverse
  let folder := backwards.dropWhile fun c => c ≠ '/'
  match (backwards.takeWhile fun c => c ≠ '/').dropWhile fun c => c ≠ '.' with
  | _ :: c :: stem => String.ofList ((c :: stem ++ folder).reverse) ++ ".tmp"
  | _ => file ++ ".tmp"

end PageFile

end PageDb
