import PageDb.Error
import PageDb.Row

/-!
Page images: the bytes of a page file.

An image is the magic word `SPG1`, a version in two bytes, the number of rows in four, and the
rows.  A row is its position in four bytes, the number of its entries in two, and the entries.  An
entry is a tag and the value of that tag; a text is its length in bytes, in four, and its UTF-8.
All numbers are little-endian.  Every width is fixed or counted in front, so an image ends exactly
where its last row does.
-/

namespace PageDb

namespace PageImage

/-- The bytes every image begins with. -/
def magic : List UInt8 := [0x53, 0x50, 0x47, 0x31]

/-- The version of the format. -/
def version : Nat := 1

/-- The low `width` bytes of a number, lowest first. -/
def littleEndian : (width : Nat) → Nat → List UInt8
  | 0, _ => []
  | width + 1, n => UInt8.ofNat (n % 256) :: littleEndian width (n / 256)

/-- The number with the given bytes, lowest first. -/
def ofLittleEndian : List UInt8 → Nat
  | [] => 0
  | b :: rest => b.toNat + 256 * ofLittleEndian rest

/-- The first number that does not fit into two bytes. -/
def limit16 : Nat := 65536

/-- The first number that does not fit into four bytes. -/
def limit32 : Nat := 4294967296

/-- A number in four bytes, if it fits. -/
def counted (field : ImageField) (n : Nat) : Result (List UInt8) :=
  if n < limit32 then .ok (littleEndian 4 n) else .error (.corruptPage (.tooLarge field n))

/-- The bytes of an entry. -/
def encodeEntry : Entry → Result (List UInt8)
  | .null => .ok [0]
  | .int v => .ok (1 :: littleEndian 4 v.toUInt32.toNat)
  | .long v => .ok (2 :: littleEndian 8 v.toUInt64.toNat)
  | .float v => .ok (3 :: littleEndian 4 v.toNat)
  | .double v => .ok (4 :: littleEndian 8 v.toNat)
  | .text s => do
    let payload := Utf8.encode s
    let length ← counted .textLength payload.length
    .ok (5 :: (length ++ payload))

/-- The bytes of entries one after the other. -/
def encodeEntries : List Entry → Result (List UInt8)
  | [] => .ok []
  | e :: rest => do
    let bytes ← encodeEntry e
    let more ← encodeEntries rest
    .ok (bytes ++ more)

/-- The bytes of a row. -/
def encodeRow (r : Row) : Result (List UInt8) := do
  if limit16 ≤ r.entries.length then throw (.corruptPage (.tooWide r.entries.length))
  let position ← counted .position r.position
  let entries ← encodeEntries r.entries
  .ok (position ++ littleEndian 2 r.entries.length ++ entries)

/-- The bytes of rows one after the other. -/
def encodeRows : List Row → Result (List UInt8)
  | [] => .ok []
  | r :: rest => do
    let bytes ← encodeRow r
    let more ← encodeRows rest
    .ok (bytes ++ more)

/-- The image of a page with the given rows.  Rows and texts too long for their counts have none. -/
def encode (rows : List Row) : Result (List UInt8) := do
  let count ← counted .rowCount rows.length
  let body ← encodeRows rows
  .ok (magic ++ littleEndian 2 version ++ count ++ body)

/-- A reader takes what it needs from the front of the bytes that are left. -/
abbrev Reader := StateT (List UInt8) Result

/-- Takes `count` bytes, or fails with the name of what they were for. -/
def take (field : ImageField) (count : Nat) : Reader (List UInt8) := fun bytes =>
  let taken := bytes.take count
  if taken.length < count then .error (.corruptPage (.truncated field))
  else .ok (taken, bytes.drop count)

/-- Takes a number of `width` bytes. -/
def takeNumber (field : ImageField) (width : Nat) : Reader Nat := do
  return ofLittleEndian (← take field width)

/-- Takes the value that belongs to a tag. -/
def takeValue (tag : Nat) : Reader Entry :=
  match tag with
  | 0 => pure .null
  | 1 => do return .int (UInt32.ofNat (← takeNumber .int 4)).toInt32
  | 2 => do return .long (UInt64.ofNat (← takeNumber .long 8)).toInt64
  | 3 => do return .float ⟨BitVec.ofNat _ (← takeNumber .float 4)⟩
  | 4 => do return .double ⟨BitVec.ofNat _ (← takeNumber .double 8)⟩
  | 5 => do
    let length ← takeNumber .textLength 4
    let payload ← take .text length
    match Utf8.decode payload with
    | .ok s => pure (.text s)
    | .error fault => throw (.corruptPage (.invalidText fault))
  | tag => throw (.corruptPage (.unknownTag tag))

/-- Takes an entry. -/
def takeEntry : Reader Entry := do takeValue (← takeNumber .tag 1)

/-- Takes `count` things of one kind. -/
def takeMany {α : Type} (one : Reader α) : (count : Nat) → Reader (List α)
  | 0 => pure []
  | count + 1 => do
    let first ← one
    let rest ← takeMany one count
    pure (first :: rest)

/-- Takes a row. -/
def takeRow : Reader Row := do
  let header ← take .rowHeader 6
  let entries ← takeMany takeEntry (ofLittleEndian (header.drop 4))
  pure ⟨entries, ofLittleEndian (header.take 4)⟩

/-- Takes a whole image. -/
def takeImage : Reader (List Row) := do
  let header ← take .header 10
  if header.take 4 ≠ magic then throw (.corruptPage .badMagic)
  let found := ofLittleEndian ((header.drop 4).take 2)
  if found ≠ version then throw (.corruptPage (.unsupportedVersion found))
  takeMany takeRow (ofLittleEndian (header.drop 6))

/-- The rows of an image. -/
def decode (bytes : List UInt8) : Result (List Row) := do
  let (rows, rest) ← takeImage.run bytes
  if rest.isEmpty then .ok rows else .error (.corruptPage (.trailing rest.length))

end PageImage

end PageDb
