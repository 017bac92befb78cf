import PageDb.Disk.Directory
import PageDb.Disk.PageFile
import PageDb.Error

/-!
Page files on disk: whole files read, written and removed in one directory, with a count of those
read and written.

A write goes to a temporary file that is then renamed, so a write that fails leaves the file as it
was.  `Disk.outages` says which of the coming writes the device refuses; it stands for every way a
write can fail that the directory itself does not show.
-/

namespace PageDb

/-- A directory and the traffic with it. -/
structure Disk where
  directory : Directory := {}
  /-- The files read so far. -/
  reads : Nat := 0
  /-- The files written so far. -/
  writes : Nat := 0
  /-- For each coming write, whether it is refused; writes past the end are not. -/
  outages : List Bool := []

namespace Disk

/-- Writes a file in place of the one that was there. -/
def write (file : String) (data : Bytes) : Action Disk Unit := do
  let disk ← get
  let refused := disk.outages.headD false
  set { disk with outages := disk.outages.tail }
  if refused then throw .io
  let draft := PageFile.temporary file
  match disk.directory.write? draft data with
  | none => throw .io
  | some drafted =>
    modify fun d => { d with directory := drafted }
    match (drafted.remove? draft).bind fun cleared => cleared.write? file data with
    | none => throw .io
    | some renamed => modify fun d => { d with directory := renamed, writes := d.writes + 1 }

/-- The contents of a file. -/
def read (file : String) : Action Disk Bytes := do
  match (← get).directory.read? file with
  | none => throw .io
  | some data =>
    modify fun d => { d with reads := d.reads + 1 }
    pure data

/-- Removes a file; the answer is whether it was there. -/
def remove (file : String) : Action Disk Bool := do
  let disk ← get
  match disk.directory.status file with
  | .refused => throw .io
  | _ =>
    match disk.directory.remove? file with
    | some directory =>
      set { disk with directory := directory }
      pure true
    | none => pure false

/-- The numbers of the page files of a table in ascending order; a number that several names spell
is there once for each. -/
def pageNumbers (database table : String) : Action Disk (List Nat) := do
  match (← get).directory.files with
  | none => throw .io
  | some files =>
    pure ((files.keys.filterMap (PageFile.number? database table)).mergeSort fun m n => m ≤ n)

end Disk

end PageDb
