import PageDb.Proofs.Store.Residency

/-!
Making room does not look at the file of a page that is not in memory.

`Directory.Differ`, `Disk.Differ` and `Shelf.Differ` relate states that differ at most in one file.
An operation that respects them answers the same whatever is in that file, and leaves it as it was.
-/

namespace PageDb

/-! ## Disks that differ in one file -/

namespace Directory

variable {file name : String} {left right : Option Bytes} {d d' e e' : Directory}

/-- Directories that differ at most in one file, with what that file is in each of them. -/
structure Differ (file : String) (left right : Option Bytes) (d d' : Directory) : Prop where
  left : d.read? file = left
  right : d'.read? file = right
  others : ∀ f, f ≠ file → d'.read? f = d.read? f
  there : d'.files.isSome ↔ d.files.isSome
  ordered : d.Ordered ∧ d'.Ordered

theorem isSome_write?_iff {data : Bytes} :
    (d.write? name data).isSome ↔ Names name ∧ d.files.isSome := by
  rw [Option.isSome_iff_exists, Option.isSome_iff_exists]
  constructor
  · rintro ⟨e, hwrite⟩
    obtain ⟨hname, files, hfiles, -⟩ := write?_eq_some_iff.1 hwrite
    exact ⟨hname, files, hfiles⟩
  · rintro ⟨hname, files, hfiles⟩
    exact ⟨_, write?_eq_some_iff.2 ⟨hname, files, hfiles, rfl⟩⟩

theorem remove?_eq_some_iff :
    d.remove? name = some e ↔
      Names name ∧ ∃ files, d.files = some files ∧ (files.get? name).isSome ∧
        e = ⟨some (files.erase name)⟩ := by
  refine (match_status_eq_some_iff fun files => if files.contains name then
    some (Directory.mk (some (files.erase name))) else none).trans ?_
  refine and_congr_right' (exists_congr fun files => and_congr_right' ?_)
  rw [SortedMap.contains, Option.ite_none_right_eq_some, Option.some.injEq, @eq_comm _ e]

/-- A file can be removed if it can be read. -/
theorem isSome_remove?_iff : (d.remove? name).isSome ↔ (d.read? name).isSome := by
  simp only [Option.isSome_iff_exists, remove?_eq_some_iff, read?_eq_some_iff]
  constructor
  · rintro ⟨-, hname, files, hfiles, ⟨data, hdata⟩, -⟩
    exact ⟨data, hname, files, hfiles, hdata⟩
  · rintro ⟨data, hname, files, hfiles, hdata⟩
    exact ⟨_, hname, files, hfiles, ⟨data, hdata⟩, rfl⟩

theorem read?_of_remove? (ho : d.Ordered) (h : d.remove? name = some e) : e.read? name = none := by
  obtain ⟨-, files, hfiles, -, rfl⟩ := remove?_eq_some_iff.1 h
  refine Option.eq_none_iff_forall_ne_some.2 fun data hread => ?_
  obtain ⟨-, erased, herased, hget⟩ := read?_eq_some_iff.1 hread
  obtain rfl : files.erase name = erased := Option.some.inj herased
  rw [SortedMap.get?_erase_eq (ho files hfiles), if_pos rfl] at hget
  cases hget

/-- A file is replaced. -/
theorem differ_of_write? {data : Bytes} (ho : d.Ordered) (h : d.write? name data = some e) :
    Differ name (d.read? name) (some data) d e where
  left := rfl
  right := read?_of_write? h
  others _ hf := read?_of_write?_of_ne h hf
  there := by
    obtain ⟨-, files, hfiles, rfl⟩ := write?_eq_some_iff.1 h
    simp [hfiles]
  ordered := ⟨ho, ho.write? h⟩

/-- A file is lost. -/
theorem differ_of_remove? (ho : d.Ordered) (h : d.remove? name = some e) :
    Differ name (d.read? name) none d e where
  left := rfl
  right := read?_of_remove? ho h
  others _ hf := read?_of_remove?_of_ne ho h hf
  there := by
    obtain ⟨files, hfiles, rfl⟩ := files_of_remove? h
    simp [hfiles]
  ordered := ⟨ho, ho.remove? h⟩

namespace Differ

/-- The same file of both directories is changed, and afterwards it is the same in both. -/
theorem change (h : Differ file left right d d') (hne : name ≠ file)
    (hthere : e.files.isSome ∧ e'.files.isSome) (hordered : e.Ordered ∧ e'.Ordered)
    (hself : e'.read? name = e.read? name)
    (hothers : ∀ f, f ≠ name → e.read? f = d.read? f ∧ e'.read? f = d'.read? f) :
    Differ file left right e e' where
  left := (hothers file hne.symm).1.trans h.left
  right := (hothers file hne.symm).2.trans h.right
  others f hf := by
    by_cases hname : f = name
    · rw [hname, hself]
    · rw [(hothers f hname).1, (hothers f hname).2, h.others f hf]
  there := by simp [hthere]
  ordered := hordered

/-- Writing another file succeeds in both or in neither. -/
theorem write? (h : Differ file left right d d') (hne : name ≠ file) (data : Bytes) :
    d.write? name data = none ∧ d'.write? name data = none ∨
      ∃ e e', d.write? name data = some e ∧ d'.write? name data = some e' ∧
        Differ file left right e e' := by
  have hsome : (d'.write? name data).isSome ↔ (d.write? name data).isSome := by
    rw [isSome_write?_iff, isSome_write?_iff, h.there]
  cases hwrite : d.write? name data with
  | none => exact .inl ⟨rfl, by simpa [hwrite] using hsome⟩
  | some e =>
    obtain ⟨e', hwrite'⟩ := Option.isSome_iff_exists.1 (hsome.2 (by simp [hwrite]))
    refine .inr ⟨e, e', rfl, hwrite', h.change hne
      ⟨isSome_files_of_write? hwrite, isSome_files_of_write? hwrite'⟩
      ⟨h.ordered.1.write? hwrite, h.ordered.2.write? hwrite'⟩ ?_ fun f hf =>
        ⟨read?_of_write?_of_ne hwrite hf, read?_of_write?_of_ne hwrite' hf⟩⟩
    rw [read?_of_write? hwrite, read?_of_write? hwrite']

/-- Removing another file succeeds in both or in neither. -/
theorem remove? (h : Differ file left right d d') (hne : name ≠ file) :
    d.remove? name = none ∧ d'.remove? name = none ∨
      ∃ e e', d.remove? name = some e ∧ d'.remove? name = some e' ∧
        Differ file left right e e' := by
  have hsome : (d'.remove? name).isSome ↔ (d.remove? name).isSome := by
    rw [isSome_remove?_iff, isSome_remove?_iff, h.others name hne]
  cases hremove : d.remove? name with
  | none => exact .inl ⟨rfl, by simpa [hremove] using hsome⟩
  | some e =>
    obtain ⟨e', hremove'⟩ := Option.isSome_iff_exists.1 (hsome.2 (by simp [hremove]))
    have hthere {a b : Directory} (hr : a.remove? name = some b) : b.files.isSome := by
      obtain ⟨files, -, rfl⟩ := files_of_remove? hr
      rfl
    refine .inr ⟨e, e', rfl, hremove', h.change hne ⟨hthere hremove, hthere hremove'⟩
      ⟨h.ordered.1.remove? hremove, h.ordered.2.remove? hremove'⟩ ?_ fun f hf =>
        ⟨read?_of_remove?_of_ne h.ordered.1 hremove hf,
          read?_of_remove?_of_ne h.ordered.2 hremove' hf⟩⟩
    rw [read?_of_remove? h.ordered.1 hremove, read?_of_remove? h.ordered.2 hremove']

end Differ

end Directory

namespace Disk

variable {file name : String} {left right : Option Bytes} {d d' : Disk}

/-- Disks that differ at most in one file and refuse the same writes. -/
structure Differ (file : String) (left right : Option Bytes) (d d' : Disk) : Prop where
  directory : Directory.Differ file left right d.directory d'.directory
  outages : d'.outages = d.outages

/-- Writing a file does not look at another one. -/
theorem respects_write (hname : name ≠ file) (hdraft : PageFile.temporary name ≠ file)
    (data : Bytes) : (write name data).Respects (Differ file left right) := by
  intro d d' h
  rw [run_write, run_write, h.outages]
  by_cases hrefused : d.outages.headD false = true
  · rw [if_pos hrefused, if_pos hrefused]
    exact ⟨rfl, h.directory, rfl⟩
  rw [if_neg hrefused, if_neg hrefused]
  obtain ⟨hnone, hnone'⟩ | ⟨drafted, drafted', hwrite, hwrite', hdrafted⟩ :=
    h.directory.write? hdraft data
  · rw [hnone, hnone']
    exact ⟨rfl, h.directory, rfl⟩
  rw [hwrite, hwrite']
  obtain ⟨hnone, hnone'⟩ | ⟨cleared, cleared', hremove, hremove', hcleared⟩ :=
    hdrafted.remove? hdraft
  · dsimp only
    rw [hnone, hnone']
    exact ⟨rfl, hdrafted, rfl⟩
  obtain ⟨hnone, hnone'⟩ | ⟨renamed, renamed', hrename, hrename', hrenamed⟩ :=
    hcleared.write? hname data
  · dsimp only
    rw [hremove, hremove', Option.bind_some, Option.bind_some, hnone, hnone']
    exact ⟨rfl, hdrafted, rfl⟩
  · dsimp only
    rw [hremove, hremove', Option.bind_some, Option.bind_some, hrename, hrename']
    exact ⟨rfl, hrenamed, rfl⟩

end Disk

/-! ## Shelves that differ in the file of one page -/

namespace Shelf

variable {n : Nat} {file : String} {left right : Option Bytes} {α : Type}

/-- Shelves that differ at most in the file of a page that is not in memory. -/
structure Differ (n : Nat) (file : String) (left right : Option Bytes) (sh sh' : Shelf) : Prop where
  store : sh'.store = sh.store
  named : sh.store.fileName n = file
  away : ∀ p ∈ sh.store.pages.values, p.number ≠ n
  disk : Disk.Differ file left right sh.disk sh'.disk

/-- A store whose page `n` is in `file` and not in memory. -/
def Away (n : Nat) (file : String) (s : Store) : Prop :=
  s.fileName n = file ∧ ∀ p ∈ s.pages.values, p.number ≠ n

theorem respects_bind_getStore {f : Store → Action Shelf α}
    (hf : ∀ s, Away n file s → (f s).Respects (Differ n file left right)) :
    (getStore >>= f).Respects (Differ n file left right) := by
  intro sh sh' h
  rw [Action.run_bind_ok (run_getStore sh), Action.run_bind_ok (run_getStore sh'), h.store]
  exact hf sh.store ⟨h.named, h.away⟩ sh sh' h

theorem respects_modifyStore {f : Store → Store}
    (hf : ∀ s, Away n file s → Away n file (f s)) :
    (modifyStore f).Respects (Differ n file left right) :=
  .modify fun sh _ h =>
    have hpage := hf sh.store ⟨h.named, h.away⟩
    ⟨congrArg f h.store, hpage.1, hpage.2, h.disk⟩

theorem respects_setStore {s : Store} (hs : Away n file s) :
    (setStore s).Respects (Differ n file left right) :=
  respects_modifyStore fun _ _ => hs

theorem respects_getIndex : getIndex.Respects (Differ n file left right) :=
  respects_bind_getStore fun _ _ => .lift _

theorem respects_setIndex (index : Index Slot) :
    (setIndex index).Respects (Differ n file left right) :=
  respects_modifyStore fun _ hs => hs

theorem respects_onDisk {action : Action Disk α}
    (h : action.Respects (Disk.Differ file left right)) :
    (onDisk action).Respects (Differ n file left right) :=
  .onPart h (fun _ _ hs => hs.disk) fun _ _ _ _ hs hp => ⟨hs.store, hs.named, hs.away, hp⟩

/-- Writing another page does not look at the file. -/
theorem respects_writePage {page : Page} (hpage : page.number ≠ n) :
    (writePage page).Respects (Differ n file left right) := by
  refine respects_bind_getStore fun s hs => ?_
  refine .bind (.lift _) fun index => .bind (.lift _) fun image => ?_
  refine respects_onDisk (Disk.respects_write ?_ ?_ image)
  · rw [← hs.1]
    exact fun heq => hpage (PageFile.name_injective _ _ heq)
  · rw [← hs.1]
    exact fun heq => PageFile.name_ne_temporary _ _ n _ heq.symm

theorem respects_markEvicted (page : Nat) (keys : List Entry) :
    (markEvicted page keys).Respects (Differ n file left right) := by
  induction keys with
  | nil => exact .pure _
  | cons key rest ih =>
    refine .bind respects_getIndex fun index => .bind (.lift _) fun exchanged => ?_
    exact .bind (respects_setIndex _) fun _ => ih

theorem respects_evict : evict.Respects (Differ n file left right) := by
  refine respects_bind_getStore fun s hs => ?_
  cases s.replacer.victim? with
  | none => exact .pure _
  | some victim =>
    dsimp only
    cases hpage : s.pages.get? victim with
    | none => exact .bind (respects_setStore hs) fun _ => .pure _
    | some page =>
      have hmem : page ∈ s.pages.values := by
        obtain ⟨b, hb, rfl⟩ := Option.map_eq_some_iff.1 hpage
        exact List.mem_map_of_mem (SortedMap.mem_of_find? hb).1
      have hleave : (do markEvicted victim page.keys
                        modifyStore fun s => s.forgetPage victim
                        pure true : Action Shelf Bool).Respects (Differ n file left right) := by
        refine .bind (respects_markEvicted _ _) fun _ => .bind ?_ fun _ => .pure _
        refine respects_modifyStore fun s hs => ⟨hs.1, fun p hp => hs.2 p ?_⟩
        exact ((SortedMap.eraseFrom_sublist victim s.pages.toList).map Prod.snd).subset hp
      dsimp only
      split
      · refine .bind (respects_writePage (hs.2 page hmem)).attempt fun written => ?_
        cases written with
        | error e => exact .pure _
        | ok u => exact hleave
      · rw [pure_bind]
        exact hleave

/-- Making room does not look at the file of a page that is not in memory. -/
theorem respects_makeRoom : makeRoom.Respects (Differ n file left right) := by
  refine respects_bind_getStore fun s _ => ?_
  split
  · exact .bind respects_evict fun _ => .pure _
  · exact .pure _

end Shelf

end PageDb
