import PageDb.Proofs.Disk
import Mathlib.Data.List.Sort

/-!
Finding the page files of a table.

The number in a page file's name is the number of the page, and no draft has a number.  A directory
in which a table has the files of its pages and no others with a number lists exactly those pages.
-/

namespace PageDb

namespace Literal

theorem isDigit_of_mem_toDigits {n : Nat} {c : Char} (h : c ∈ Nat.toDigits 10 n) :
    isDigit c = true := by
  have hdigit := Nat.isDigit_of_mem_toDigits (by omega) (by omega) h
  simp only [Char.isDigit, Bool.and_eq_true, decide_eq_true_eq] at hdigit
  simp only [isDigit, Bool.and_eq_true, decide_eq_true_eq]
  exact hdigit

/-- The numeral of a number is read as that number. -/
theorem natural?_toDigits (n : Nat) : natural? (Nat.toDigits 10 n) = some n := by
  have hall : (Nat.toDigits 10 n).all isDigit = true :=
    List.all_eq_true.2 fun c hc => isDigit_of_mem_toDigits hc
  have hne : (Nat.toDigits 10 n).isEmpty = false := by
    simp
  have hvalue : digitsValue (Nat.toDigits 10 n) = n := by
    have hfold : digitsValue (Nat.toDigits 10 n) = Nat.ofDigitChars 10 (Nat.toDigits 10 n) 0 := by
      simp only [digitsValue, Nat.ofDigitChars_eq_foldl, Nat.mul_comm]
      rfl
    rw [hfold, Nat.ofDigitChars_ten_toDigits]
  simp [natural?, hall, hne, hvalue]

theorem naturalBelow?_toDigits {n bound : Nat} (h : n < bound) :
    naturalBelow? bound (Nat.toDigits 10 n) = some n := by
  unfold naturalBelow?
  split
  · rename_i rest heq
    have hplus : '+' ∈ Nat.toDigits 10 n := by simp [heq]
    exact absurd (isDigit_of_mem_toDigits hplus) (by decide)
  · simp [natural?_toDigits, h]

theorem lt_of_naturalBelow? {n bound : Nat} {cs : List Char} (h : naturalBelow? bound cs = some n) :
    n < bound := by
  obtain ⟨-, hlt⟩ := Option.filter_eq_some_iff.1 h
  exact of_decide_eq_true hlt

end Literal

namespace PageFile

theorem dropStem?_append (stem cs : List Char) : dropStem? stem (stem ++ cs) = some cs := by
  simp [dropStem?]

theorem dropEnding?_append (cs ending : List Char) : dropEnding? ending (cs ++ ending) = some cs := by
  simp [dropEnding?, dropStem?_append]

theorem eq_of_dropStem? {stem cs rest : List Char} (h : dropStem? stem cs = some rest) :
    cs = stem ++ rest := by
  unfold dropStem? at h
  split at h
  · rename_i htake
    cases h
    exact (List.take_append_drop stem.length cs).symm.trans (by rw [htake])
  · cases h

theorem eq_of_dropEnding? {ending cs rest : List Char} (h : dropEnding? ending cs = some rest) :
    cs = rest ++ ending := by
  obtain ⟨reversed, hreversed, rfl⟩ := Option.map_eq_some_iff.1 h
  have hcs := congrArg List.reverse (eq_of_dropStem? hreversed)
  simpa using hcs

/-- The file of a page is found under the number of the page. -/
theorem number?_name (database table : String) {page : Nat} (h : page < numberLimit) :
    number? database table (name database table page) = some page := by
  have hlist : (name database table page).toList =
      (tableStem database table).toList ++ (Nat.toDigits 10 page ++ ending.toList) := by
    simp [name]
  simp only [number?, hlist, dropStem?_append, Option.bind_eq_bind, Option.bind_some,
    dropEnding?_append]
  exact Literal.naturalBelow?_toDigits h

/-- A number in a name takes four bytes. -/
theorem number?_lt {database table file : String} {page : Nat}
    (h : number? database table file = some page) : page < numberLimit := by
  obtain ⟨_, -, h⟩ := Option.bind_eq_some_iff.1 h
  obtain ⟨_, -, h⟩ := Option.bind_eq_some_iff.1 h
  exact Literal.lt_of_naturalBelow? h

/-- A name with a number ends as the names of page files do. -/
theorem getLast?_of_number? {database table file : String} {page : Nat}
    (h : number? database table file = some page) : file.toList.getLast? = some 'a' := by
  obtain ⟨rest, hrest, h⟩ := Option.bind_eq_some_iff.1 h
  obtain ⟨numeral, hnumeral, -⟩ := Option.bind_eq_some_iff.1 h
  rw [eq_of_dropStem? hrest, eq_of_dropEnding? hnumeral, ← List.append_assoc]
  rw [List.getLast?_append_of_ne_nil _ (by decide)]
  decide

/-- No draft is taken for a page. -/
theorem number?_temporary (database table file : String) :
    number? database table (temporary file) = none := by
  cases h : number? database table (temporary file) with
  | none => rfl
  | some page =>
    have hlast := getLast?_of_number? h
    rw [getLast?_temporary] at hlast
    exact absurd hlast (by decide)

end PageFile

namespace Disk

/-- The files of the pages of a table, from the first to the last. -/
structure Lists (database table : String) (last : Nat) (d : Directory) : Prop where
  filed : ∀ n, 0 < n → n ≤ last → PageFile.name database table n ∈ d.names
  only : ∀ f ∈ d.names, ∀ n, PageFile.number? database table f = some n →
    ∃ m, 0 < m ∧ m ≤ last ∧ f = PageFile.name database table m

namespace Lists

variable {database table : String} {last : Nat} {d : Directory} {files : SortedMap String Bytes}

/-- Among the files that are there a number has one name only. -/
theorem eq_name (h : Lists database table last d) (hlast : last < PageFile.numberLimit)
    {f : String} (hf : f ∈ d.names) {n : Nat} (hn : PageFile.number? database table f = some n) :
    0 < n ∧ n ≤ last ∧ f = PageFile.name database table n := by
  obtain ⟨m, hpos, hle, rfl⟩ := h.only f hf n hn
  rw [PageFile.number?_name database table (by omega)] at hn
  cases hn
  exact ⟨hpos, hle, rfl⟩

/-- No number is found twice. -/
theorem nodup_numbers (h : Lists database table last d) (hlast : last < PageFile.numberLimit)
    (hordered : d.Ordered) (hfiles : d.files = some files) :
    (files.keys.filterMap (PageFile.number? database table)).Nodup := by
  have hascending : files.keys.Pairwise fun f g => compare f g = .lt :=
    List.pairwise_map.2 (hordered files hfiles).increasing
  have hdistinct : files.keys.Pairwise fun f g => f ∈ files.keys ∧ g ∈ files.keys ∧ f ≠ g := by
    refine hascending.imp_of_mem fun {f g} hf hg hlt => ⟨hf, hg, ?_⟩
    rintro rfl
    rw [SortedMap.orderedOn_all.refl trivial] at hlt
    cases hlt
  rw [← Directory.names_eq hfiles] at hdistinct ⊢
  -- two files of one number would have one name
  refine hdistinct.filterMap _ ?_
  rintro f g ⟨hf, hg, hne⟩ m hm _ hm' rfl
  exact hne ((h.eq_name hlast hf hm).2.2.trans (h.eq_name hlast hg hm').2.2.symm)

/-- The numbers that are found are those of the pages. -/
theorem perm_numbers (h : Lists database table last d) (hlast : last < PageFile.numberLimit)
    (hordered : d.Ordered) (hfiles : d.files = some files) :
    (files.keys.filterMap (PageFile.number? database table)).Perm (List.range' 1 last) := by
  refine (List.perm_ext_iff_of_nodup (h.nodup_numbers hlast hordered hfiles) List.nodup_range').2 ?_
  intro n
  rw [List.mem_filterMap, List.mem_range'_1, ← Directory.names_eq hfiles]
  constructor
  · rintro ⟨f, hf, hn⟩
    obtain ⟨hpos, hle, -⟩ := h.eq_name hlast hf hn
    omega
  · intro hn
    have hle : n ≤ last := by omega
    exact ⟨_, h.filed n hn.1 hle, PageFile.number?_name database table (by omega)⟩

end Lists

/-- Numbers that are those up to the last in some order are those in ascending order once sorted. -/
theorem mergeSort_eq_range' {numbers : List Nat} {last : Nat}
    (h : numbers.Perm (List.range' 1 last)) :
    numbers.mergeSort (fun m n => m ≤ n) = List.range' 1 last := by
  have hascends : (numbers.mergeSort fun m n => m ≤ n).Pairwise (· ≤ ·) := by
    refine (List.pairwise_mergeSort ?_ ?_ numbers).imp of_decide_eq_true
    · intro l m n hlm hmn
      exact decide_eq_true (Nat.le_trans (of_decide_eq_true hlm) (of_decide_eq_true hmn))
    · intro m n
      simpa using Nat.le_total m n
  have hrange : (List.range' 1 last).Pairwise (· ≤ ·) :=
    (List.pairwise_lt_range' 1).imp Nat.le_of_lt
  exact ((List.mergeSort_perm numbers _).trans h).eq_of_pairwise
    (fun _ _ _ _ => Nat.le_antisymm) hascends hrange

/-- Numbers that are found in any order are answered in ascending order. -/
theorem run_pageNumbers {database table : String} {last : Nat} {d : Disk}
    {files : SortedMap String Bytes} (hfiles : d.directory.files = some files)
    (h : (files.keys.filterMap (PageFile.number? database table)).Perm (List.range' 1 last)) :
    (pageNumbers database table).run d = (.ok (List.range' 1 last), d) := by
  simp only [pageNumbers]
  rw [Action.run_bind_ok (Action.run_get d), hfiles]
  simp only [mergeSort_eq_range' h]
  rfl

/-- A directory that lists the pages of a table up to the last answers their numbers in order. -/
theorem pageNumbers_run {database table : String} {last : Nat} {d : Disk}
    (hordered : d.directory.Ordered) (hthere : d.directory.files.isSome)
    (hlast : last < PageFile.numberLimit) (h : Lists database table last d.directory) :
    (pageNumbers database table).run d = (.ok (List.range' 1 last), d) := by
  obtain ⟨files, hfiles⟩ := Option.isSome_iff_exists.1 hthere
  exact run_pageNumbers hfiles (h.perm_numbers hlast hordered hfiles)

end Disk

end PageDb
