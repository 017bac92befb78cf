import PageDb.SortedMap

/-!
The data directory: files by name, as long as the directory is there.
-/

namespace PageDb

/-- The contents of a file. -/
abbrev Bytes := List UInt8

/-- A directory without subdirectories; `none` once it has been deleted. -/
structure Directory where
  files : Option (SortedMap String Bytes) := some ∅

/-- How a directory answers to a file name. -/
inductive NameStatus where
  /-- The name may stand for a file here. -/
  | valid (files : SortedMap String Bytes)
  /-- The name leads to a directory that is not there. -/
  | missing
  /-- The name can never be that of a file. -/
  | refused

namespace Directory

/-- The greatest number of bytes in a file name. -/
def nameLimit : Nat := 255

/-- Looks at a name.  A name with a slash leads through its first part, which is never a directory:
it is a file, or it is missing. -/
def status (d : Directory) (name : String) : NameStatus :=
  let first := String.ofList (name.toList.takeWhile fun c => c ≠ '/')
  if Char.ofNat 0 ∈ name.toList then .refused
  else
    match d.files with
    | none => .missing
    | some files =>
      if nameLimit < first.utf8ByteSize then .refused
      else if '/' ∈ name.toList then if files.contains first then .refused else .missing
      else if name ∈ ["", ".", ".."] then .refused
      else .valid files

/-- The contents of a file. -/
def read? (d : Directory) (name : String) : Option Bytes :=
  match d.status name with
  | .valid files => files.get? name
  | _ => none

/-- The directory with a file written. -/
def write? (d : Directory) (name : String) (data : Bytes) : Option Directory :=
  match d.status name with
  | .valid files => some ⟨some (files.insert name data)⟩
  | _ => none

/-- The directory without a file that is there. -/
def remove? (d : Directory) (name : String) : Option Directory :=
  match d.status name with
  | .valid files => if files.contains name then some ⟨some (files.erase name)⟩ else none
  | _ => none

/-- The directory with `count` bytes cut off the end of a file. -/
def cut? (d : Directory) (name : String) (count : Nat) : Option Directory :=
  match d.read? name with
  | some data => d.write? name (data.take (data.length - count))
  | none => none

/-- The file names in ascending order; none once the directory is gone. -/
def names (d : Directory) : List String :=
  match d.files with
  | some files => files.keys
  | none => []

/-- The directory, made anew if it is gone. -/
def restored (d : Directory) : Directory :=
  match d.files with
  | some _ => d
  | none => {}

end Directory

end PageDb
