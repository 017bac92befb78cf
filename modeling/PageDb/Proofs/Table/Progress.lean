import PageDb.Proofs.Store.Keying
import PageDb.Proofs.Table.Walk

/-!
A walk gets on with every key.

`Walk.left` is how many keys a walk has yet to pass.  Whatever becomes of the rows, whether they can be
read or not, getting them leaves the keys of all tables alone, so a walk that gives out something has
fewer keys left than before.
-/

namespace PageDb

namespace SortedMap

variable {κ ν : Type} [Ord κ] {P : κ → Prop}

/-- Keys that lie in a class and ascend strictly. -/
structure Ascends (P : κ → Prop) (keys : List κ) : Prop where
  holds : ∀ k ∈ keys, P k
  increasing : keys.Pairwise fun a b => compare a b = .lt

theorem Ascending.ascends {m : SortedMap κ ν} (h : m.Ascending P) : Ascends P m.keys where
  holds k hk := by
    obtain ⟨b, hb, rfl⟩ := List.mem_map.1 hk
    exact h.holds b hb
  increasing := List.pairwise_map.2 h.increasing

/-- What a list of keys has left after a key that need not be in it. -/
def pastKey (key : κ) : List κ → List κ
  | [] => []
  | k :: rest =>
    match compare key k with
    | .lt => k :: rest
    | .eq => rest
    | .gt => pastKey key rest

/-- What a list of keys has left after `after`, if that is there. -/
def past (after : Option κ) (keys : List κ) : List κ :=
  match after with
  | none => keys
  | some key => pastKey key keys

theorem pastKey_suffix (key : κ) (keys : List κ) : pastKey key keys <:+ keys := by
  induction keys with
  | nil => exact List.suffix_refl _
  | cons k rest ih =>
    rw [pastKey]
    cases compare key k with
    | lt => exact List.suffix_refl _
    | eq => exact List.suffix_cons k rest
    | gt => exact ih.trans (List.suffix_cons k rest)

theorem past_suffix (after : Option κ) (keys : List κ) : past after keys <:+ keys := by
  cases after with
  | none => exact List.suffix_refl _
  | some key => exact pastKey_suffix key keys

/-- The next key is the first one that is left. -/
theorem nextKey?_eq_head? (m : SortedMap κ ν) (after : Option κ) :
    m.nextKey? after = (past after m.keys).head? := by
  obtain ⟨bindings⟩ := m
  cases after with
  | none => exact List.head?_map.symm
  | some key =>
    simp only [nextKey?, past, keys]
    induction bindings with
    | nil => rfl
    | cons b rest ih =>
      obtain ⟨k, v⟩ := b
      simp only [keyAfter?, List.map_cons, pastKey]
      cases compare key k with
      | lt => rfl
      | eq => exact List.head?_map.symm
      | gt => exact ih

/-- After the first key that is left there is the rest. -/
theorem past_of_cons (hP : OrderedOn P) {keys : List κ} (hkeys : Ascends P keys) {after : Option κ}
    {k : κ} {rest : List κ} (h : past after keys = k :: rest) : past (some k) keys = rest := by
  obtain ⟨front, hsplit⟩ := past_suffix after keys
  rw [h] at hsplit
  have hk : P k := hkeys.holds k (by simp [← hsplit])
  -- the keys in front of `k` are all passed on the way to it
  have hgreater : ∀ c ∈ front, compare k c = .gt := by
    intro c hc
    have hlt := hkeys.increasing
    rw [← hsplit, List.pairwise_append] at hlt
    exact hP.gt_of_lt (hkeys.holds c (by simp [← hsplit, hc])) hk (hlt.2.2 c hc k (by simp))
  rw [← hsplit]
  clear hsplit h
  induction front with
  | nil => simp [past, pastKey, hP.refl hk]
  | cons c front ih =>
    simp only [past, List.cons_append, pastKey, hgreater c (by simp)]
    exact ih fun d hd => hgreater d (by simp [hd])

end SortedMap

/-! ## The keys of tables -/

/-- The keys of the table in ascending order; none once it has been dropped. -/
def Table.keyList (t : Table) (s : Tablespace) : List Entry := (t.store s).keyList

/-- The keys of the tables are of their types, and ascend. -/
def Table.InOrder (tables : List Table) (keys : Table → List Entry) : Prop :=
  ∀ t ∈ tables, SortedMap.Ascends (Entry.fits t.keyType) (keys t)

namespace Tablespace

/-- The keys of all tables are the given ones. -/
def Keyed (keys : Table → List Entry) (s : Tablespace) : Prop := ∀ t : Table, t.keyList s = keys t

/-- The indexes of the tables are in order. -/
def Indexed (tables : List Table) (s : Tablespace) : Prop :=
  Table.InOrder tables fun t => t.keyList s

variable {keys : Table → List Entry} {s : Tablespace} {t u : Table} {α : Type} {P : α → Prop}

theorem keyed_keyList (s : Tablespace) : s.Keyed fun t => t.keyList s := fun _ => rfl

theorem Keyed.rowCount (h : s.Keyed keys) (t : Table) : (t.store s).rowCount = (keys t).length := by
  rw [← h t]
  exact (Store.length_keyList _).symm

theorem Keyed.indexed (h : s.Keyed keys) {tables : List Table} (hkeys : Table.InOrder tables keys) :
    Indexed tables s :=
  fun t ht => by
    dsimp only
    rw [h t]
    exact hkeys t ht

/-- Tables of one number have one store. -/
theorem keyList_eq_of_number (h : t.number = u.number) (s : Tablespace) :
    t.keyList s = u.keyList s := by
  unfold Table.keyList Table.store
  rw [h]
  cases s.stores.get? u.number <;> rfl

theorem Keyed.keeps_onStore (t : Table) {action : Action Shelf α}
    (ha : Action.Keeps (Shelf.Keyed (keys t)) action P) :
    Action.Keeps (Keyed keys) (t.onStore action) P := by
  intro s hs
  obtain ⟨hafter, hpost⟩ := ha (t.shelf s) (hs t)
  refine ⟨fun u => ?_, hpost⟩
  rw [Table.run_onStore]
  by_cases hnumber : t.number = u.number
  · have hkeys : keys t = keys u := by rw [← hs t, ← hs u, keyList_eq_of_number hnumber]
    rw [← keyList_eq_of_number hnumber, ← hkeys, ← hafter]
    exact congrArg (fun sh : Shelf => sh.store.keyList) (Table.shelf_withShelf t s _)
  · rw [← hs u]
    exact congrArg Store.keyList (Table.store_withShelf_of_ne hnumber s _)

theorem Keyed.keeps_find? (t : Table) (key : Entry) :
    Action.Keeps (Keyed keys) (t.find? key) fun _ => True := by
  refine .bind (keeps_onStore t (Shelf.Keyed.keeps_getRow key _)).attempt fun r _ => ?_
  split
  · exact .pure trivial
  · exact .pure trivial
  · exact .throw _

/-- The next key is the first one that is left, unless the table has been dropped. -/
theorem Keyed.leads_nextKey? (h : s.Keyed keys) (t : Table) (after : Option Entry) :
    (t.nextKey? after).Leads s
      (fun next s' => next = (SortedMap.past after (keys t)).head? ∧ s'.Keyed keys)
      (Keyed keys) := by
  have hrun : (t.nextKey? after).run s = ((t.store s).nextKey? after, s) := rfl
  rw [Action.Leads, hrun, ← h t, Table.keyList, Store.keyList, Store.nextKey?, Store.liveIndex]
  cases (t.store s).index with
  | none => exact h
  | some index => exact ⟨SortedMap.nextKey?_eq_head? index after, h⟩

end Tablespace

/-- The index of a sound store is in order. -/
theorem Table.Stands.ascends {t : Table} {s : Tablespace} (h : t.Stands s) :
    SortedMap.Ascends (Entry.fits t.keyType) (t.keyList s) := by
  have hlive : (t.store s).index = some (t.shelf s).index := h.sound.live
  rw [Table.keyList, Store.keyList, hlive]
  exact h.sound.agree.ascending.ascends

/-- Sound tables are indexed, whatever they hold. -/
theorem Tablespace.Holds.indexed {tables : List Table} {rows : Table → SortedMap Entry Row}
    {s : Tablespace} (h : Tablespace.Holds tables rows s) : Tablespace.Indexed tables s :=
  fun t ht => (h t ht).1.ascends

/-! ## Where something leads that moves -/

namespace Moving

variable {σ τ α : Type} {m : σ} {s : Tablespace} {E : σ × Tablespace → Prop}

theorem run_moveTo (m m' : σ) (s : Tablespace) :
    (moveTo m' : Moving σ Unit).run (m, s) = (.ok (), (m', s)) := rfl

/-- Looking at tables moves nothing. -/
theorem leads_still {action : Action Tablespace α} {P : α → Tablespace → Prop} {F : Tablespace → Prop}
    (h : action.Leads s P F) (hE : ∀ s', F s' → E (m, s')) :
    (still action : Moving σ α).Leads (m, s) (fun x now => m = now.1 ∧ P x now.2) E := by
  unfold Action.Leads at h ⊢
  rw [run_still]
  rcases hrun : action.run s with ⟨_ | _, s'⟩
  · rw [hrun] at h
    exact hE s' h
  · rw [hrun] at h
    exact ⟨rfl, h⟩

/-- A part moves, and the rest does not. -/
theorem leads_part {get : σ → τ} {set : τ → σ → σ} {action : Moving τ α}
    {P : α → τ × Tablespace → Prop} {F : τ × Tablespace → Prop} (h : action.Leads (get m, s) P F)
    (hE : ∀ moved s', F (moved, s') → E (set moved m, s')) :
    (part get set action).Leads (m, s)
      (fun x now => ∃ moved, now.1 = set moved m ∧ P x (moved, now.2)) E := by
  unfold Action.Leads at h ⊢
  rw [run_part]
  rcases hrun : action.run (get m, s) with ⟨_ | _, moved, s'⟩
  · rw [hrun] at h
    exact hE moved s' h
  · rw [hrun] at h
    exact ⟨moved, rfl, h⟩

end Moving

/-! ## Walks -/

namespace Walk

open Tablespace (Keyed)

/-- How many keys a walk has yet to pass. -/
def left (keys : Table → List Entry) (walk : Walk) : Nat :=
  if walk.ended then 0 else (SortedMap.past walk.last (keys walk.table)).length

variable {keys : Table → List Entry} {tables : List Table} {s : Tablespace} {walk : Walk}

theorem left_le (keys : Table → List Entry) (walk : Walk) :
    walk.left keys ≤ (keys walk.table).length := by
  unfold left
  split
  · exact Nat.zero_le _
  · exact (SortedMap.past_suffix _ _).length_le

/-- What asking a walk for something may come to: the keys are the same, and the walk is in its table
and no further from its end. -/
structure Onward (keys : Table → List Entry) (walk : Walk) (now : Walk × Tablespace) : Prop where
  keyed : now.2.Keyed keys
  table : now.1.table = walk.table
  le : now.1.left keys ≤ walk.left keys

/-- What it comes to if the walk gives out something: it is nearer to its end. -/
def Nearer {α : Type} (keys : Table → List Entry) (walk : Walk) (given : Option α)
    (now : Walk × Tablespace) : Prop :=
  Onward keys walk now ∧ (given.isSome = true → now.1.left keys < walk.left keys)

theorem Onward.refl (h : s.Keyed keys) (walk : Walk) : Onward keys walk (walk, s) := ⟨h, rfl, Nat.le_refl _⟩

theorem Onward.trans {walk' : Walk} {now : Walk × Tablespace} (h : Onward keys walk (walk', s))
    (h' : Onward keys walk' now) : Onward keys walk now :=
  ⟨h'.keyed, h'.table.trans h.table, Nat.le_trans h'.le h.le⟩

theorem leads_nextKey (hkeys : Table.InOrder tables keys) (ht : walk.table ∈ tables)
    (hs : s.Keyed keys) :
    nextKey.Leads (walk, s) (Nearer keys walk) (Onward keys walk) := by
  refine .bind_ok (Moving.run_mover _ _) ?_
  cases hended : walk.ended with
  | true => exact .pure ⟨.refl hs walk, nofun⟩
  | false =>
    simp only [Bool.false_eq_true, if_false]
    refine .bind (Moving.leads_still (hs.leads_nextKey? walk.table walk.last)
      fun s' hs' => .refl hs' walk) ?_
    rintro _ ⟨_, s'⟩ ⟨rfl, rfl, hs'⟩
    cases hpast : SortedMap.past walk.last (keys walk.table) with
    | nil => exact .bind_ok (Moving.run_moveTo _ _ _) (.pure ⟨⟨hs', rfl, Nat.zero_le _⟩, nofun⟩)
    | cons k rest =>
      have hrest := SortedMap.past_of_cons (Entry.orderedOn_fits _) (hkeys _ ht) hpast
      have hlt : ({ walk with last := some k, ended := false } : Walk).left keys < walk.left keys := by
        simp [left, hended, hrest, hpast]
      exact .bind_ok (Moving.run_moveTo _ _ _) (.pure ⟨⟨hs', rfl, Nat.le_of_lt hlt⟩, fun _ => hlt⟩)

theorem leads_nextRowWithin (hkeys : Table.InOrder tables keys) (ht : walk.table ∈ tables)
    (hs : s.Keyed keys) (fuel : Nat) :
    (nextRowWithin fuel).Leads (walk, s) (Nearer keys walk) (Onward keys walk) := by
  induction fuel generalizing walk s with
  | zero => exact .pure ⟨.refl hs walk, nofun⟩
  | succ fuel ih =>
    refine .bind (leads_nextKey hkeys ht hs) ?_
    rintro given ⟨walk', s₁⟩ ⟨honward, hnearer⟩
    cases given with
    | none => exact .pure ⟨honward, nofun⟩
    | some k =>
      have hlt : walk'.left keys < walk.left keys := hnearer rfl
      refine .bind_ok (Moving.run_mover _ _) (.bind (Moving.leads_still
        (.of_keeps (Tablespace.Keyed.keeps_find? walk'.table k) honward.keyed)
        fun s₂ hs₂ => ⟨hs₂, honward.table, honward.le⟩) ?_)
      rintro found ⟨_, s₂⟩ ⟨rfl, -, hs₂⟩
      cases found with
      | some row => exact .pure ⟨⟨hs₂, honward.table, honward.le⟩, fun _ => hlt⟩
      | none =>
        -- the rest of the walk starts where this key was passed
        have hhere : Onward keys walk (walk', s₂) := ⟨hs₂, honward.table, honward.le⟩
        exact (ih (honward.table ▸ ht) hs₂).mono
          (fun _ _ hrest => ⟨hhere.trans hrest.1, fun _ => Nat.lt_of_le_of_lt hrest.1.le hlt⟩)
          fun _ hrest => hhere.trans hrest

theorem leads_nextRow (hkeys : Table.InOrder tables keys) (ht : walk.table ∈ tables)
    (hs : s.Keyed keys) :
    nextRow.Leads (walk, s) (Nearer keys walk) (Onward keys walk) :=
  Action.Leads.bind_ok (Action.run_get _) (leads_nextRowWithin hkeys ht hs _)

end Walk

end PageDb
