import PageDb.Number.Shortest

/-!
Entries: the scalar values that rows hold and that keys are made of.
-/

namespace PageDb

/-- The declared type of a column. -/
inductive ColumnType where
  /-- 32-bit signed integers. -/
  | int
  /-- 64-bit signed integers. -/
  | long
  /-- Binary floating point in four bytes. -/
  | float
  /-- Binary floating point in eight bytes. -/
  | double
  /-- Unicode text. -/
  | text
deriving DecidableEq, Repr

namespace ColumnType

/-- The name of a type. -/
def name : ColumnType → String
  | .int => "INT"
  | .long => "LONG"
  | .float => "FLOAT"
  | .double => "DOUBLE"
  | .text => "STRING"

/-- Every type but text holds numbers. -/
def isNumeric : ColumnType → Bool
  | .text => false
  | _ => true

/-- All the types. -/
def all : List ColumnType := [.int, .long, .float, .double, .text]

/-- The type of a name; the case of ASCII letters does not matter. -/
def ofName? (s : String) : Option ColumnType :=
  let folded := String.ofList (s.toList.map Char.toUpper)
  all.find? fun t => t.name = folded

theorem ofName?_name (t : ColumnType) : ofName? t.name = some t := by
  cases t <;> decide +kernel

end ColumnType

/-- A scalar value. -/
inductive Entry where
  | null
  | int (value : Int32)
  | long (value : Int64)
  | float (value : Binary .single)
  | double (value : Binary .double)
  | text (value : String)
deriving DecidableEq

namespace Entry

/-- The type an entry has by itself; null has none. -/
def type? : Entry → Option ColumnType
  | .null => none
  | .int _ => some .int
  | .long _ => some .long
  | .float _ => some .float
  | .double _ => some .double
  | .text _ => some .text

/-- Whether the entry is null. -/
def isNull : Entry → Bool
  | .null => true
  | _ => false

/-- The value of an integer entry. -/
def integer? : Entry → Option Int
  | .int value => some value.toInt
  | .long value => some value.toInt
  | _ => none

/-- The value of a numeric entry, rounded to eight bytes where it has to be. -/
def number? : Entry → Option (Binary .double)
  | .int value => some (.ofInt .double value.toInt)
  | .long value => some (.ofInt .double value.toInt)
  | .float value => some (value.convert .double)
  | .double value => some value
  | _ => none

/-- The value of a text entry. -/
def text? : Entry → Option String
  | .text value => some value
  | _ => none

/-- The text of an entry, as answers and messages show it. -/
def toText : Entry → String
  | .null => "null"
  | .int value => toString value.toInt
  | .long value => toString value.toInt
  | .float value => value.toText
  | .double value => value.toText
  | .text value => value

end Entry

end PageDb
