import PageDb.Disk
import PageDb.Proofs.Action
import PageDb.Proofs.SortedMap

/-!
What reads and writes of page files do to each other.

A write replaces its own file or leaves it as it was, and touches no other page file: besides the
file itself it only ever touches the draft, whose name is that of no page file.
-/

namespace PageDb

/-! ## The names of page files -/

namespace PageFile

theorem name_injective (database table : String) {m n : Nat}
    (h : name database table m = name database table n) : m = n := by
  have hlist := congrArg String.toList h
  simp only [name, String.toList_append, List.append_cancel_left_eq,
    List.append_cancel_right_eq] at hlist
  have hdigits : Nat.toDigits 10 m = Nat.toDigits 10 n := by simpa using hlist
  rw [← Nat.ofDigitChars_ten_toDigits (n := m), hdigits, Nat.ofDigitChars_ten_toDigits]

theorem isDigit_of_mem_toString {n : Nat} {c : Char} (h : c ∈ (toString n).toList) :
    c.isDigit = true := by
  rw [Nat.toString_eq_ofList_toDigits, String.toList_ofList] at h
  exact Nat.isDigit_of_mem_toDigits (by omega) (by omega) h

/-- A file name shows what the names of its table begin with: all up to the last separator. -/
theorem tableStem_eq_of_name_eq {database table database' table' : String} {m n : Nat}
    (h : name database table m = name database' table' n) :
    tableStem database table = tableStem database' table' := by
  have hcut (database table : String) (n : Nat) :
      (name database table n).toList.reverse.dropWhile (fun c => c ≠ '#') =
        (tableStem database table).toList.reverse := by
    have hbehind : ∀ c ∈ (ending.toList.reverse ++ (toString n).toList.reverse), c ≠ '#' := by
      intro c hc
      rw [List.mem_append, List.mem_reverse, List.mem_reverse] at hc
      rcases hc with hc | hc
      · rintro rfl
        exact absurd hc (by decide)
      · rintro rfl
        exact absurd (isDigit_of_mem_toString hc) (by decide)
    have hstem : (tableStem database table).toList.reverse =
        '#' :: '_' :: '#' :: ("page" ++ separator ++ database ++ separator ++ table).toList.reverse := by
      simp [tableStem, separator]
    simp only [name, String.toList_append, List.reverse_append, ← List.append_assoc]
    rw [List.dropWhile_append_of_pos (by simpa using hbehind), hstem]
    rfl
  have hlist := congrArg (fun s => s.toList.reverse.dropWhile fun c => c ≠ '#') h
  simp only [hcut, List.reverse_inj] at hlist
  exact String.toList_inj.1 hlist

/-- What a text ends with, if it ends with something. -/
theorem getLast?_toList_append (s : String) {suffixed : String} {c : Char}
    (h : suffixed.toList.getLast? = some c) : (s ++ suffixed).toList.getLast? = some c := by
  simp [h]

theorem getLast?_name (database table : String) (page : Nat) :
    (name database table page).toList.getLast? = some 'a' :=
  getLast?_toList_append _ (by decide)

theorem getLast?_temporary (file : String) : (temporary file).toList.getLast? = some 'p' := by
  simp only [temporary]
  split <;> exact getLast?_toList_append _ (by decide)

/-- No page file is the draft of a file. -/
theorem name_ne_temporary (database table : String) (page : Nat) (file : String) :
    name database table page ≠ temporary file := by
  intro h
  have hlast := getLast?_name database table page
  rw [h, getLast?_temporary] at hlast
  exact absurd hlast (by decide)

end PageFile

/-! ## Directories -/

namespace Directory

/-- The file names of the directory ascend. -/
def Ordered (d : Directory) : Prop :=
  ∀ files, d.files = some files → files.Ascending fun _ => True

/-- Whether a name stands for a file in a directory that is there. -/
def Names (name : String) : Prop :=
  Char.ofNat 0 ∉ name.toList ∧
    ¬ nameLimit < (String.ofList (name.toList.takeWhile fun c => c ≠ '/')).utf8ByteSize ∧
    '/' ∉ name.toList ∧ name ∉ ["", ".", ".."]

/-- Which names are valid does not depend on the files there. -/
theorem status_eq_valid_iff {d : Directory} {name : String} {files : SortedMap String Bytes} :
    d.status name = .valid files ↔ d.files = some files ∧ Names name := by
  unfold status Names
  by_cases hzero : Char.ofNat 0 ∈ name.toList
  · simp [hzero]
  cases hfiles : d.files with
  | none => simp [hzero]
  | some present =>
    by_cases hlong :
        nameLimit < (String.ofList (name.toList.takeWhile fun c => c ≠ '/')).utf8ByteSize
    · simp only [hzero, hlong, if_true, if_false, not_true, false_and, and_false, reduceCtorEq]
    by_cases hslash : '/' ∈ name.toList
    · simp only [hzero, hlong, hslash, if_true, if_false, not_true, false_and, and_false]
      split <;> simp
    by_cases hdots : name ∈ ["", ".", ".."]
    · simp only [hzero, hlong, hslash, hdots, if_true, if_false, not_true, and_false, reduceCtorEq]
    · simp only [hzero, hlong, hslash, hdots, if_false, not_false_eq_true, and_self, and_true,
        NameStatus.valid.injEq, Option.some.injEq]

/-- Work on the files of a directory that is there, under a valid name. -/
theorem match_status_eq_some_iff {α : Type} {d : Directory} {name : String}
    (work : SortedMap String Bytes → Option α) {result : α} :
    (match d.status name with
      | .valid files => work files
      | _ => none) = some result ↔
      Names name ∧ ∃ files, d.files = some files ∧ work files = some result := by
  split
  · rename_i files hstatus
    obtain ⟨hfiles, hname⟩ := status_eq_valid_iff.1 hstatus
    simp [hfiles, hname]
  · rename_i hstatus
    refine iff_of_false nofun ?_
    rintro ⟨hname, files, hfiles, -⟩
    exact hstatus files (status_eq_valid_iff.2 ⟨hfiles, hname⟩)

/-- What can be read is in a file with a valid name. -/
theorem read?_eq_some_iff {d : Directory} {name : String} {data : Bytes} :
    d.read? name = some data ↔
      Names name ∧ ∃ files, d.files = some files ∧ files.get? name = some data :=
  match_status_eq_some_iff fun files => files.get? name

theorem read?_empty (name : String) : ({} : Directory).read? name = none := by
  refine Option.eq_none_iff_forall_ne_some.2 fun data h => ?_
  obtain ⟨-, files, hfiles, hget⟩ := read?_eq_some_iff.1 h
  obtain rfl : ∅ = files := by simpa using hfiles
  simp at hget

theorem ordered_empty : ({} : Directory).Ordered := by
  rintro _ ⟨⟩
  exact SortedMap.ascending_empty

theorem Ordered.restored {d : Directory} (h : d.Ordered) : d.restored.Ordered := by
  rw [Directory.restored]
  split
  · exact h
  · exact ordered_empty

theorem write?_eq_some_iff {d d' : Directory} {name : String} {data : Bytes} :
    d.write? name data = some d' ↔
      Names name ∧ ∃ files, d.files = some files ∧ d' = ⟨some (files.insert name data)⟩ := by
  refine (match_status_eq_some_iff fun files =>
    some (Directory.mk (some (files.insert name data)))).trans ?_
  simp only [Option.some.injEq, @eq_comm _ d']

theorem files_of_remove? {d d' : Directory} {name : String} (h : d.remove? name = some d') :
    ∃ files, d.files = some files ∧ d' = ⟨some (files.erase name)⟩ := by
  unfold remove? at h
  split at h
  · rename_i files hstatus
    split at h
    · exact ⟨files, (status_eq_valid_iff.1 hstatus).1, by simpa using h.symm⟩
    · cases h
  · cases h

variable {d d' : Directory} {name : String} {data : Bytes}

theorem read?_of_write? (h : d.write? name data = some d') : d'.read? name = some data := by
  obtain ⟨hname, files, -, rfl⟩ := write?_eq_some_iff.1 h
  exact read?_eq_some_iff.2 ⟨hname, _, rfl, files.get?_insert_self name data⟩

/-- Directories that show the same contents of a file. -/
theorem read?_congr {other : String} {files files' : SortedMap String Bytes}
    (hfiles : d.files = some files) (hfiles' : d'.files = some files')
    (h : files'.get? other = files.get? other) : d'.read? other = d.read? other := by
  ext data
  simp [read?_eq_some_iff, hfiles, hfiles', h]

theorem compare_ne_of_ne {a b : String} (h : a ≠ b) : compare a b ≠ .eq :=
  fun heq => h (Std.LawfulEqOrd.eq_of_compare heq)

/-- Writing a file changes no other file. -/
theorem read?_of_write?_of_ne (h : d.write? name data = some d') {other : String}
    (hne : other ≠ name) : d'.read? other = d.read? other := by
  obtain ⟨-, files, hfiles, rfl⟩ := write?_eq_some_iff.1 h
  exact read?_congr hfiles rfl (files.get?_insert_of_ne data (compare_ne_of_ne hne))

/-- Removing a file changes no other file. -/
theorem read?_of_remove?_of_ne (ho : d.Ordered) (h : d.remove? name = some d') {other : String}
    (hne : other ≠ name) : d'.read? other = d.read? other := by
  obtain ⟨files, hfiles, rfl⟩ := files_of_remove? h
  refine read?_congr hfiles rfl ?_
  rw [SortedMap.get?_erase SortedMap.orderedOn_all (ho files hfiles) trivial trivial,
    if_neg (compare_ne_of_ne hne)]

theorem Ordered.write? (ho : d.Ordered) (h : d.write? name data = some d') : d'.Ordered := by
  obtain ⟨-, files, hfiles, rfl⟩ := write?_eq_some_iff.1 h
  rintro _ ⟨⟩
  exact (ho files hfiles).insert SortedMap.orderedOn_all trivial data

theorem Ordered.remove? (ho : d.Ordered) (h : d.remove? name = some d') : d'.Ordered := by
  obtain ⟨files, hfiles, rfl⟩ := files_of_remove? h
  rintro _ ⟨⟩
  exact (ho files hfiles).erase name

/-! ## The names of files -/

theorem names_eq {files : SortedMap String Bytes} (h : d.files = some files) :
    d.names = files.keys := by simp [names, h]

/-- A file that is written is there, and no other one is new. -/
theorem names_of_write? (h : d.write? name data = some d') {f : String} (hf : f ∈ d'.names) :
    f ∈ d.names ∨ f = name := by
  obtain ⟨-, files, hfiles, rfl⟩ := write?_eq_some_iff.1 h
  rw [names_eq rfl] at hf
  rw [names_eq hfiles]
  obtain ⟨b, hb, rfl⟩ := List.mem_map.1 hf
  rcases SortedMap.mem_insertInto hb with rfl | hb | ⟨v, hb⟩
  · exact .inr rfl
  · exact .inl (List.mem_map_of_mem hb)
  · exact .inl (List.mem_map.2 ⟨_, hb, rfl⟩)

theorem names_of_remove? (h : d.remove? name = some d') {f : String} (hf : f ∈ d'.names) :
    f ∈ d.names := by
  obtain ⟨files, hfiles, rfl⟩ := files_of_remove? h
  rw [names_eq rfl] at hf
  rw [names_eq hfiles]
  obtain ⟨b, hb, rfl⟩ := List.mem_map.1 hf
  exact List.mem_map_of_mem ((SortedMap.eraseFrom_sublist name files.toList).subset hb)

/-- A file that can be read is there. -/
theorem mem_names_of_read? (h : d.read? name = some data) : name ∈ d.names := by
  obtain ⟨-, files, hfiles, hget⟩ := read?_eq_some_iff.1 h
  rw [names_eq hfiles]
  obtain ⟨b, hb, rfl⟩ := Option.map_eq_some_iff.1 hget
  obtain ⟨hmem, hcompare⟩ := SortedMap.mem_of_find? hb
  exact Std.LawfulEqCmp.eq_of_compare hcompare ▸ List.mem_map_of_mem hmem

theorem isSome_files_of_write? (h : d.write? name data = some d') : d'.files.isSome := by
  obtain ⟨-, files, -, rfl⟩ := write?_eq_some_iff.1 h
  rfl

end Directory

/-! ## Writing and reading -/

namespace Disk

/-- A disk that differs from an earlier one only in files that `owned` allows. -/
structure Changes (owned : String → Prop) (d d' : Disk) : Prop where
  others : ∀ f, ¬ owned f → d'.directory.read? f = d.directory.read? f
  names : ∀ f ∈ d'.directory.names, f ∈ d.directory.names ∨ owned f
  there : d.directory.files.isSome → d'.directory.files.isSome

namespace Changes

variable {owned : String → Prop} {d d' d'' : Disk}

theorem of_directory_eq (h : d'.directory = d.directory) : Changes owned d d' :=
  ⟨fun _ _ => by rw [h], fun _ hf => .inl (h ▸ hf), fun hs => by rwa [h]⟩

theorem trans (h : Changes owned d d') (h' : Changes owned d' d'') : Changes owned d d'' where
  others f hf := (h'.others f hf).trans (h.others f hf)
  names f hf := (h'.names f hf).elim (h.names f) .inr
  there hs := h'.there (h.there hs)

theorem mono (h : Changes owned d d') {more : String → Prop} (hmore : ∀ f, owned f → more f) :
    Changes more d d' where
  others f hf := h.others f fun howned => hf (hmore f howned)
  names f hf := (h.names f hf).imp_right (hmore f)
  there := h.there

end Changes

/-- The files that a write of `file` works on. -/
def Touched (file f : String) : Prop := f = file ∨ f = PageFile.temporary file

/-- The outcomes of a write: refused by the device, or by the directory before or after the draft
is written, or done. -/
theorem run_write (d : Disk) (file : String) (data : Bytes) :
    (write file data).run d =
      if d.outages.headD false = true then (.error .io, { d with outages := d.outages.tail })
      else match d.directory.write? (PageFile.temporary file) data with
        | none => (.error .io, { d with outages := d.outages.tail })
        | some drafted =>
          match (drafted.remove? (PageFile.temporary file)).bind fun c => c.write? file data with
          | none => (.error .io, { d with outages := d.outages.tail, directory := drafted })
          | some renamed =>
            (.ok (), { d with
              outages := d.outages.tail, directory := renamed, writes := d.writes + 1 }) := by
  simp only [write, Action.run_bind, Action.run_get, Action.run_set]
  split
  · rfl
  · cases d.directory.write? (PageFile.temporary file) data with
    | none => rfl
    | some drafted =>
      simp only [Action.run_bind, Action.run_modify]
      cases (drafted.remove? (PageFile.temporary file)).bind fun c => c.write? file data <;> rfl

/-- A write reads no file, and writes at most one. -/
theorem counts_write (d : Disk) (file : String) (data : Bytes) :
    ((write file data).run d).2.reads = d.reads ∧
      ((write file data).run d).2.writes ≤ d.writes + 1 := by
  rw [run_write]
  split
  · exact ⟨rfl, Nat.le_succ _⟩
  split
  · exact ⟨rfl, Nat.le_succ _⟩
  split
  · exact ⟨rfl, Nat.le_succ _⟩
  · exact ⟨rfl, Nat.le_refl _⟩

/-- A write either succeeds, and the file holds the data, or fails, and the file is as it was. -/
theorem write_run {d : Disk} (ho : d.directory.Ordered) (file : String)
    (hfile : file ≠ PageFile.temporary file) (data : Bytes) :
    ∃ r d', (write file data).run d = (r, d') ∧ d'.directory.Ordered ∧
      Changes (Touched file) d d' ∧
      (r = .ok () ∧ d'.directory.read? file = some data ∨
        r = .error .io ∧ d'.directory.read? file = d.directory.read? file) := by
  rw [run_write]
  split
  · exact ⟨_, _, rfl, ho, .of_directory_eq rfl, .inr ⟨rfl, rfl⟩⟩
  cases hdraft : d.directory.write? (PageFile.temporary file) data with
  | none => exact ⟨_, _, rfl, ho, .of_directory_eq rfl, .inr ⟨rfl, rfl⟩⟩
  | some drafted =>
    have hdrafted := ho.write? hdraft
    have hspared {other : String} (hne : other ≠ PageFile.temporary file) :
        drafted.read? other = d.directory.read? other :=
      Directory.read?_of_write?_of_ne hdraft hne
    have hnames {f : String} (hf : f ∈ drafted.names) : f ∈ d.directory.names ∨ Touched file f :=
      (Directory.names_of_write? hdraft hf).imp_right .inr
    have hthere := Directory.isSome_files_of_write? hdraft
    dsimp only
    cases hrename : (drafted.remove? (PageFile.temporary file)).bind fun c => c.write? file data with
    | none =>
      exact ⟨_, _, rfl, hdrafted, ⟨fun _ hf => hspared fun h => hf (.inr h), fun _ => hnames,
        fun _ => hthere⟩, .inr ⟨rfl, hspared hfile⟩⟩
    | some renamed =>
      obtain ⟨cleared, hclear, hwrite⟩ := Option.bind_eq_some_iff.1 hrename
      refine ⟨_, _, rfl, (hdrafted.remove? hclear).write? hwrite, ⟨?_, ?_, ?_⟩,
        .inl ⟨rfl, Directory.read?_of_write? hwrite⟩⟩
      · intro other hother
        calc renamed.read? other = cleared.read? other :=
              Directory.read?_of_write?_of_ne hwrite fun h => hother (.inl h)
          _ = drafted.read? other :=
              Directory.read?_of_remove?_of_ne hdrafted hclear fun h => hother (.inr h)
          _ = d.directory.read? other := hspared fun h => hother (.inr h)
      · intro f hf
        rcases Directory.names_of_write? hwrite hf with hf | rfl
        · exact hnames (Directory.names_of_remove? hclear hf)
        · exact .inr (.inl rfl)
      · exact fun _ => Directory.isSome_files_of_write? hwrite

theorem read_run {d : Disk} {file : String} {data : Bytes}
    (h : d.directory.read? file = some data) :
    (read file).run d = (.ok data, { d with reads := d.reads + 1 }) := by
  simp only [read, Action.run_bind, Action.run_get, h, Action.run_modify, Action.run_pure]

end Disk

end PageDb
