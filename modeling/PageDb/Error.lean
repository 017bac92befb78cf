import PageDb.Entry.Basic
import PageDb.Text.Utf8

/-!
What can go wrong, by cause, and the wording of each cause.
-/

namespace PageDb

/-- What takes part in a conversion or a comparison. -/
inductive Subject where
  | type (t : ColumnType)
  | null
  | number
  | text
  | column
  | long (value : Int64)
  | literal (source : String)
deriving DecidableEq

/-- How messages name a subject. -/
def Subject.label : Subject → String
  | .type t => t.name
  | .null => "NULL"
  | .number => "NUMBER"
  | .text => "STRING"
  | .column => "COLUMN"
  | .long value => "LONG " ++ toString value.toInt
  | .literal source => "'" ++ source ++ "'"

/-- How messages name the type of an entry. -/
def Entry.subject (e : Entry) : Subject :=
  match e.type? with
  | some t => .type t
  | none => .null

/-- A part of a page image. -/
inductive ImageField where
  | header
  | rowHeader
  | tag
  | int
  | long
  | float
  | double
  | textLength
  | text
  | rowCount
  | position
deriving DecidableEq, Repr

/-- How messages name a part of a page image. -/
def ImageField.label : ImageField → String
  | .header => "header"
  | .rowHeader => "row header"
  | .tag => "entry tag"
  | .int => "int"
  | .long => "long"
  | .float => "float"
  | .double => "double"
  | .textLength => "string length"
  | .text => "string"
  | .rowCount => "row count"
  | .position => "position"

/-- Why the rows of a page and its image do not fit together. -/
inductive PageFault where
  | tooWide (entries : Nat)
  | tooLarge (field : ImageField) (value : Nat)
  | truncated (field : ImageField)
  | badMagic
  | unsupportedVersion (version : Nat)
  | unknownTag (tag : Nat)
  | trailing (bytes : Nat)
  | invalidText (fault : Utf8.Fault)
  /-- The page is resident, but the row is not in memory. -/
  | rowMissing (key : Entry) (page : Nat)
  /-- The page was read back, and the row was not on it. -/
  | rowMissingFromFile (key : Entry) (page : Nat)
deriving DecidableEq

/-- How page numbers are written. -/
def pageLabel (page : Nat) : String := "PageId(" ++ toString page ++ ")"

/-- How session numbers are written. -/
def sessionLabel (session : Nat) : String := "Session(" ++ toString session ++ ")"

/-- The wording of a page fault. -/
def PageFault.message : PageFault → String
  | .tooWide entries => "row with " ++ toString entries ++ " entries is too wide"
  | .tooLarge field value => field.label ++ " " ++ toString value ++ " is too large"
  | .truncated field => "truncated " ++ field.label
  | .badMagic => "bad magic"
  | .unsupportedVersion version => "unsupported version " ++ toString version
  | .unknownTag tag => "unknown entry tag " ++ toString tag
  | .trailing bytes => toString bytes ++ " trailing bytes"
  | .invalidText fault => "invalid utf-8: " ++ fault.message
  | .rowMissing key page => "row " ++ key.toText ++ " missing from page " ++ pageLabel page
  | .rowMissingFromFile key page =>
    "row " ++ key.toText ++ " missing from page file of " ++ pageLabel page

/-- Why a row does not fit the columns it is used with. -/
inductive SchemaFault where
  | noKeyColumn (width column : Nat)
  | noColumn (width column : Nat)
  | unknownColumn (table column : String)
deriving DecidableEq

/-- The wording of a schema fault. -/
def SchemaFault.message : SchemaFault → String
  | .noKeyColumn width column =>
    "row has " ++ toString width ++ " columns, primary key is column " ++ toString column
  | .noColumn width column =>
    "row has " ++ toString width ++ " columns, no column " ++ toString column
  | .unknownColumn table column => "table " ++ table ++ " has no column " ++ column

/-- Why an operation failed. -/
inductive Error where
  /-- The directory refused to read, write or list. -/
  | io
  | duplicateKey (key : Entry)
  | keyNotFound (key : Entry)
  | columnNotFound (name : String)
  | columnAmbiguous (name : String)
  | columnMalformed (name : String)
  | typeMismatch (left right : Subject)
  | schemaMismatch (fault : SchemaFault)
  | lengthMismatch (expected actual : Nat)
  | duplicateColumn (name : String)
  | nullNotAllowed (column : String)
  | valueTooLong (column : String)
  /-- A table needs one primary column and has `count` of them. -/
  | primaryCount (count : Nat)
  | tableNotFound (name : String)
  | tableExists (name : String)
  | databaseNotFound (name : String)
  | pageNotResident (page : Nat)
  | corruptPage (fault : PageFault)
  | tableDropped (name : String)
deriving DecidableEq

/-- The wording of an error. -/
def Error.message : Error → String
  | .io => "I/O error"
  | .duplicateKey key => "Duplicate key: " ++ key.toText
  | .keyNotFound key => "Key does not exist: " ++ key.toText
  | .columnNotFound name => "Attribute not found: " ++ name
  | .columnAmbiguous name => "Attribute is ambiguous: " ++ name
  | .columnMalformed name => "Invalid attribute name: " ++ name
  | .typeMismatch left right =>
    "Type mismatch: cannot compare " ++ left.label ++ " with " ++ right.label
  | .schemaMismatch fault => "Schema does not match: " ++ fault.message
  | .lengthMismatch expected actual =>
    "Length does not match: expected " ++ toString expected ++ ", got " ++ toString actual
  | .duplicateColumn name => "Duplicate column: " ++ name
  | .nullNotAllowed column => "Column " ++ column ++ " may not be null"
  | .valueTooLong column => "Value exceeds the maximum length of column " ++ column
  | .primaryCount 0 => "Primary key not defined: no primary column"
  | .primaryCount count =>
    "Primary key not defined: " ++ toString count ++ " primary columns, expected one"
  | .tableNotFound name => "Table " ++ name ++ " does not exist"
  | .tableExists name => "Table " ++ name ++ " already exists"
  | .databaseNotFound name => "Database " ++ name ++ " does not exist"
  | .pageNotResident page => "Page " ++ pageLabel page ++ " not resident"
  | .corruptPage fault => "Corrupt page file: " ++ fault.message
  | .tableDropped name => "Table " ++ name ++ " has been dropped"

/-- The result of an operation that may fail and changes nothing. -/
abbrev Result := Except Error

/-- An operation that changes a state and may fail; changes made before a failure stay. -/
abbrev Action (σ : Type) := ExceptT Error (StateM σ)

/-- An operation on a part of the state, as one on the whole. -/
def Action.onPart {σ τ α : Type} (get : σ → τ) (set : τ → σ → σ) (action : Action τ α) :
    Action σ α :=
  ExceptT.mk fun s =>
    let (result, part) := action.run (get s)
    (result, set part s)

/-- The outcome of an operation, as a value: failures are answered and not passed on. -/
def Action.attempt {σ α : Type} (action : Action σ α) : Action σ (Result α) :=
  ExceptT.mk fun s =>
    let (result, s') := action.run s
    (.ok result, s')

section Runs

variable {σ τ α : Type}

@[simp] theorem Action.run_onPart (get : σ → τ) (set : τ → σ → σ) (action : Action τ α) (s : σ) :
    (Action.onPart get set action).run s =
      ((action.run (get s)).1, set (action.run (get s)).2 s) := rfl

@[simp] theorem Action.run_attempt (action : Action σ α) (s : σ) :
    action.attempt.run s = (.ok (action.run s).1, (action.run s).2) := rfl

end Runs

end PageDb
