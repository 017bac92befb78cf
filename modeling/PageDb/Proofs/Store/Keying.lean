import PageDb.Proofs.Store.Invariants

/-!
Getting rows leaves the keys alone.

`Shelf.Keyed` says which keys a store has.  Getting a row may write pages, evict them and read others
back, and it may fail anywhere on the way, but all it does to the index is to fill the slots of keys
that are there.  Nothing has to be known about the store or its page files for that.
-/

namespace PageDb

/-- The keys of a store in ascending order; none once the table has been dropped. -/
def Store.keyList (s : Store) : List Entry :=
  match s.index with
  | some index => index.keys
  | none => []

theorem Store.keyList_of_index {s s' : Store} (h : s'.index = s.index) : s'.keyList = s.keyList := by
  rw [keyList, keyList, h]

theorem Store.length_keyList (s : Store) : s.keyList.length = s.rowCount := by
  unfold keyList rowCount
  cases s.index with
  | none => rfl
  | some index => exact List.length_map ..

/-- Filling a slot changes no key. -/
theorem Index.keys_exchange {ν : Type} {index index' : Index ν} {key : Entry} {value old : ν}
    (h : index.exchange key value = .ok (old, index')) : index'.keys = index.keys := by
  unfold Index.exchange at h
  split at h
  · cases h
    exact index.keys_modify key _
  · cases h

namespace Shelf

/-- The store has the given keys. -/
def Keyed (keys : List Entry) (sh : Shelf) : Prop := sh.store.keyList = keys

/-- The keys as an invariant. -/
def keying (keys : List Entry) : Invariant where
  holds := Keyed keys
  store s := s.keyList = keys
  index index := index.keys = keys

/-- Pages may come and go, and only slots of keys that are there are filled. -/
theorem keying_reads (keys : List Entry) : (keying keys).Reads where
  store hsh := hsh
  withStore _ hs := hs
  disk _ := trivial
  withDisk hsh _ := hsh
  live {s index} hs hlive := by
    change s.keyList = keys at hs
    rwa [Store.keyList, hlive] at hs
  withIndex _ hindex := hindex
  exchange hindex _ hexchange := (Index.keys_exchange hexchange).trans hindex
  written _ _ _ := fun _ _ => ⟨trivial, fun _ _ => trivial⟩
  victim _ _ := trivial
  unvisited hs _ := hs
  forgotten hs _ := hs
  cleaned hs := hs
  fetch {_ _ slot} _ _ := by cases slot <;> trivial
  read _ _ := fun _ _ => ⟨trivial, fun _ _ _ _ _ _ => trivial⟩
  brought hs _ _ _ _ := hs
  visited {s pin} hs _ n := (Store.keyList_of_index (s.alike_visit n pin).index).trans hs

/-- Getting a row leaves the keys alone, whether it succeeds or not. -/
theorem Keyed.keeps_getRow {keys : List Entry} (key : Entry) (primary : Nat) :
    Action.Keeps (Keyed keys) (getRow key primary) fun _ => True :=
  (keying_reads keys).keeps_getRow key primary

end Shelf

end PageDb
