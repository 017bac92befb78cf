import PageDb.Error
import PageDb.Number.Literal
import PageDb.Text.Blank

/-!
Conversions of entries: from numbers, between column types, and from literals.
-/

namespace PageDb

namespace Entry

/-- The bounds of 32-bit integers. -/
def intBounds : Int × Int := (-2147483648, 2147483647)

/-- The bounds of 64-bit integers. -/
def longBounds : Int × Int := (-9223372036854775808, 9223372036854775807)

/-- The entry of a numeric type for a number.  Integer types drop the fraction and take the
nearest bound for a number out of range, and zero for a NaN. -/
def ofNumber (x : Binary .double) : ColumnType → Result Entry
  | .int => .ok (.int (Int32.ofInt (x.truncate intBounds.1 intBounds.2)))
  | .long => .ok (.long (Int64.ofInt (x.truncate longBounds.1 longBounds.2)))
  | .float => .ok (.float (x.convert .single))
  | .double => .ok (.double x)
  | .text => .error (.typeMismatch (.type .text) .number)

/-- The entry as one of the given type.  Null stays null, text becomes only text, and integers
pass between the integer types exactly or not at all. -/
def coerce (e : Entry) (t : ColumnType) : Result Entry :=
  match e, t with
  | .null, _ => .ok .null
  | .text s, .text => .ok (.text s)
  | .int v, .int => .ok (.int v)
  | .int v, .long => .ok (.long v.toInt64)
  | .long v, .long => .ok (.long v)
  | .long v, .int =>
    if intBounds.1 ≤ v.toInt ∧ v.toInt ≤ intBounds.2 then .ok (.int v.toInt32)
    else .error (.typeMismatch (.type .int) (.long v))
  | e, t =>
    match e.number? with
    | some x => ofNumber x t
    | none => .error (.typeMismatch (.type t) e.subject)

/-- The single quote. -/
def quoteMark : Char := Char.ofNat 39

/-- The text without one pair of single quotes around it, if it has one. -/
def unquote (cs : List Char) : List Char :=
  let inner := cs.tail
  if cs.head? = some quoteMark ∧ inner.getLast? = some quoteMark then inner.dropLast else cs

/-- Reads a literal as a value of the given type.  White space around it does not count, and
`null` in any case is null for every type. -/
def parse (s : String) (t : ColumnType) : Result Entry :=
  let cs := trimBlank s.toList
  let mismatch : Error := .typeMismatch (.type t) (.literal (String.ofList cs))
  if cs.map Char.toLower = ['n', 'u', 'l', 'l'] then .ok .null
  else
    let entry? : Option Entry :=
      match t with
      | .int => (Literal.bounded? intBounds.1 intBounds.2 cs).map fun i => .int (Int32.ofInt i)
      | .long => (Literal.bounded? longBounds.1 longBounds.2 cs).map fun i => .long (Int64.ofInt i)
      | .float => (Literal.decimal? cs).map fun d => .float (.ofDecimal .single d)
      | .double => (Literal.decimal? cs).map fun d => .double (.ofDecimal .double d)
      | .text => some (.text (String.ofList (unquote cs)))
    match entry? with
    | some e => .ok e
    | none => .error mismatch

end Entry

end PageDb
