import PageDb.Entry.Order

/-!
Rows: entries in column order, with the number of the page that holds them.
-/

namespace PageDb

/-- One row.  A row that is on no page yet has position zero. -/
structure Row where
  entries : List Entry
  position : Nat := 0
deriving DecidableEq

namespace Row

/-- The text of a row: the texts of its entries, with commas between them. -/
def toText (r : Row) : String := ", ".intercalate (r.entries.map Entry.toText)

/-- What the row counts against the byte budget of a page: the bytes of its text. -/
def byteSize (r : Row) : Nat := r.toText.utf8ByteSize

/-- The row on another page. -/
def placedOn (r : Row) (page : Nat) : Row := { r with position := page }

@[simp] theorem entries_placedOn (r : Row) (page : Nat) : (r.placedOn page).entries = r.entries := rfl

@[simp] theorem position_placedOn (r : Row) (page : Nat) : (r.placedOn page).position = page := rfl

/-- The size of a row does not depend on its page. -/
@[simp] theorem byteSize_placedOn (r : Row) (page : Nat) :
    (r.placedOn page).byteSize = r.byteSize := rfl

/-- Whether two lists of entries have the same length and the same keys place by place. -/
def sameEntries : List Entry → List Entry → Bool
  | [], [] => true
  | a :: as, b :: bs => a.same b && sameEntries as bs
  | _, _ => false

/-- Whether two rows have the same entries; where they lie does not matter. -/
def same (r s : Row) : Bool := sameEntries r.entries s.entries

end Row

end PageDb
