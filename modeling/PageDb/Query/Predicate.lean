import PageDb.Query.Heading
import PageDb.Query.Truth

/-!
Predicates on rows: comparisons of columns and constants, joined by `and` and `or`.

Numbers compare by the total order of eight-byte words and texts by code points.  A null on either
side leaves a comparison undecided, and a number cannot be compared with a text.
-/

namespace PageDb

/-- The relation a comparison asks for. -/
inductive Relation where
  | eq
  | ne
  | gt
  | lt
  | ge
  | le
deriving DecidableEq, Repr

/-- Whether two things that compare in the given way stand in the relation. -/
def Relation.test : Relation → Ordering → Bool
  | .eq, o => o == .eq
  | .ne, o => o != .eq
  | .gt, o => o == .gt
  | .lt, o => o == .lt
  | .ge, o => o != .lt
  | .le, o => o != .gt

/-- One side of a comparison. -/
inductive Operand where
  /-- A column, by its bare or qualified name. -/
  | column (name : String)
  | number (value : Binary .double)
  | text (value : String)
  | null
deriving DecidableEq

/-- The value of an operand. -/
inductive Scalar where
  | number (value : Binary .double)
  | text (value : String)
  | unknown
deriving DecidableEq

namespace Scalar

/-- How messages name the kind of a value. -/
def subject : Scalar → Subject
  | .number _ => .number
  | .text _ => .text
  | .unknown => .null

/-- The value of an entry in a column of the given type. -/
def ofEntry (e : Entry) (t : ColumnType) : Scalar :=
  match e with
  | .null => .unknown
  | .text s => .text s
  | e =>
    match e.number? with
    | some x => if t.isNumeric then .number x else .unknown
    | none => .unknown

/-- How two values compare; nothing if one of them is not known. -/
def compare : Scalar → Scalar → Result (Option Ordering)
  | .unknown, _ => .ok none
  | _, .unknown => .ok none
  | .number x, .number y => .ok (some (Ord.compare x.key y.key))
  | .text s, .text t => .ok (some (Ord.compare s t))
  | a, b => .error (.typeMismatch a.subject b.subject)

end Scalar

namespace Operand

/-- Whether the operand is a column. -/
def isColumn : Operand → Bool
  | .column _ => true
  | _ => false

/-- The name of the column, if the operand is one. -/
def columnName? : Operand → Option String
  | .column name => some name
  | _ => none

/-- How messages name the kind of an operand. -/
def subject : Operand → Subject
  | .column _ => .column
  | .number _ => .number
  | .text _ => .text
  | .null => .null

/-- The text of an operand. -/
def toText : Operand → String
  | .column name => name
  | .number value => value.toText
  | .text value => "'" ++ value ++ "'"
  | .null => "null"

/-- The constant as a value for a column of the given type. -/
def toEntry (o : Operand) (t : ColumnType) : Result Entry :=
  match o with
  | .null => .ok .null
  | .number value => Entry.ofNumber value t
  | .text value =>
    if t = .text then .ok (.text value) else .error (.typeMismatch (.type t) .text)
  | .column _ => .error (.typeMismatch (.type t) .column)

/-- The value of the operand for a row; without a row there are no columns. -/
def value (o : Operand) (row : Option JointRow) : Result Scalar :=
  match o with
  | .null => .ok .unknown
  | .number x => .ok (.number x)
  | .text s => .ok (.text s)
  | .column name =>
    match row with
    | none => .error (.columnNotFound name)
    | some row => do
      let (entry, type) ← row.lookup name
      return Scalar.ofEntry entry type

end Operand

/-- A question about two operands. -/
structure Comparison where
  left : Operand
  relation : Relation
  right : Operand
deriving DecidableEq

namespace Comparison

/-- Whether one of the operands is a column. -/
def hasColumn (c : Comparison) : Bool := c.left.isColumn || c.right.isColumn

/-- The answer for a row.  The left operand is looked up first. -/
def evaluate (c : Comparison) (row : Option JointRow) : Result Truth := do
  let left ← c.left.value row
  let right ← c.right.value row
  match ← left.compare right with
  | none => return .unknown
  | some o => return .ofBool (c.relation.test o)

end Comparison

/-- A tree of comparisons.  `always` holds of every row, and stands for an absent branch too. -/
inductive Predicate where
  | always
  | compare (comparison : Comparison)
  | and (left right : Predicate)
  | or (left right : Predicate)
deriving DecidableEq

namespace Predicate

/-- The comparison that the predicate consists of. -/
def comparison? : Predicate → Option Comparison
  | .compare c => some c
  | _ => none

/-- The answer for a row.  Both branches are evaluated, the left one first. -/
def evaluate (p : Predicate) (row : Option JointRow) : Result Truth :=
  match p with
  | .always => .ok .yes
  | .compare c => c.evaluate row
  | .and left right => do
    let l ← left.evaluate row
    let r ← right.evaluate row
    return l.and r
  | .or left right => do
    let l ← left.evaluate row
    let r ← right.evaluate row
    return l.or r

/-- Whether a row is accepted: the predicate is absent or true. -/
def accepts (p : Option Predicate) (row : JointRow) : Result Bool :=
  match p with
  | none => .ok true
  | some p => do return (← p.evaluate (some row)).isTrue

end Predicate

end PageDb
