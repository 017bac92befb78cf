import PageDb.Proofs.Action
import PageDb.Table.Changes

/-!
What an operation on a table has to do with the other tables: nothing.

`Tablespace.Differ` relates tablespaces that differ in one store only.  An operation that respects
it neither reads nor changes that store: it answers the same whatever the store is, and the store is
afterwards what it was.

Walks and changes are lemmas about any relation: one that getting rows respects, and writing them,
is respected by all that is made of these.
-/

namespace PageDb

/-- Tablespaces that differ at most in one store, with what that store is in each of them. -/
structure Tablespace.Differ (n : Nat) (store store' : Option Store) (s s' : Tablespace) : Prop where
  left : s.stores.get? n = store
  right : s'.stores.get? n = store'
  others : ∀ m, m ≠ n → s.stores.get? m = s'.stores.get? m
  disk : s.disk = s'.disk

section

variable {n : Nat} {store store' : Option Store} {s s' : Tablespace} {t : Table}

namespace Tablespace.Differ

/-- Both stores of another number are replaced by the same one. -/
theorem insert (h : Differ n store store' s s') {m : Nat} (hm : m ≠ n) (new : Store) (disk : Disk) :
    Differ n store store' { stores := s.stores.insert m new, disk := disk }
      { stores := s'.stores.insert m new, disk := disk } := by
  have hne : compare n m ≠ .eq := fun heq => hm (Std.LawfulEqOrd.eq_of_compare heq).symm
  refine ⟨?_, ?_, fun k hk => ?_, rfl⟩
  · rw [SortedMap.get?_insert_of_ne _ _ hne, h.left]
  · rw [SortedMap.get?_insert_of_ne _ _ hne, h.right]
  · by_cases hkm : k = m
    · rw [hkm, SortedMap.get?_insert_self, SortedMap.get?_insert_self]
    · have hne' : compare k m ≠ .eq := fun heq => hkm (Std.LawfulEqOrd.eq_of_compare heq)
      rw [SortedMap.get?_insert_of_ne _ _ hne', SortedMap.get?_insert_of_ne _ _ hne', h.others k hk]

theorem store_eq (h : Differ n store store' s s') (ht : t.number ≠ n) : t.store s = t.store s' := by
  rw [Table.store, Table.store, h.others t.number ht]

end Tablespace.Differ

variable {α : Type}

theorem Tablespace.respects_onDisk (action : Action Disk α) :
    (Tablespace.onDisk action).Respects (Tablespace.Differ n store store') := by
  refine .onPart (fun d d' (heq : d = d') => ⟨by rw [heq], by rw [heq]⟩)
    (fun _ _ h => h.disk) ?_
  rintro s s' p _ h rfl
  exact ⟨h.left, h.right, h.others, rfl⟩

theorem Table.respects_onStore (ht : t.number ≠ n) (action : Action Shelf α) :
    (t.onStore action).Respects (Tablespace.Differ n store store') := by
  refine .onPart (fun sh sh' (heq : sh = sh') => ⟨by rw [heq], by rw [heq]⟩) ?_ ?_
  · intro s s' h
    rw [h.store_eq ht, h.disk]
  · rintro s s' p _ h rfl
    exact h.insert ht p.store p.disk

/-- Related tablespaces show the same stores of some tables, and getting rows of those respects the
relation. -/
structure Tablespace.ReadsRespect (P : Table → Prop) (R : Tablespace → Tablespace → Prop) :
    Prop where
  store : ∀ {t : Table} {s s' : Tablespace}, P t → R s s' → t.store s = t.store s'
  get : ∀ {t : Table}, P t → ∀ key, (t.get key).Respects R

/-- Adding, removing and changing rows of a table respects a relation. -/
structure Table.WritesRespect (t : Table) (pin : Bool) (R : Tablespace → Tablespace → Prop) :
    Prop where
  insertRow : ∀ entries, (t.onStore (Shelf.insertRow entries t.primaryIndex pin)).Respects R
  deleteRow : ∀ key, (t.onStore (Shelf.deleteRow key t.primaryIndex pin)).Respects R
  updateRow : ∀ key targets values,
    (t.onStore (Shelf.updateRow key t.primaryIndex targets values pin)).Respects R

theorem Tablespace.readsRespect_differ :
    ReadsRespect (fun t => t.number ≠ n) (Differ n store store') where
  store ht h := h.store_eq ht
  get ht _ := Table.respects_onStore ht _

theorem Table.writesRespect_differ (ht : t.number ≠ n) (pin : Bool) :
    t.WritesRespect pin (Tablespace.Differ n store store') where
  insertRow _ := respects_onStore ht _
  deleteRow _ := respects_onStore ht _
  updateRow _ _ _ := respects_onStore ht _

variable {P : Table → Prop} {R : Tablespace → Tablespace → Prop} {pin : Bool}

namespace Table

/-- What is read off the store of a table is the same. -/
theorem respects_read (h : Tablespace.ReadsRespect P R) (ht : P t) (f : Store → Action Tablespace α)
    (hf : ∀ st, (f st).Respects R) : (MonadState.get >>= fun s => f (t.store s)).Respects R :=
  .bind_get fun s _ hs => ⟨by rw [h.store ht hs], hf (t.store s)⟩

theorem respects_find? (h : Tablespace.ReadsRespect P R) (ht : P t) (key : Entry) :
    (t.find? key).Respects R := by
  refine .bind (h.get ht key).attempt fun r => ?_
  split
  · exact .pure _
  · exact .pure _
  · exact .throw _

theorem respects_nextKey? (h : Tablespace.ReadsRespect P R) (ht : P t) (after : Option Entry) :
    (t.nextKey? after).Respects R :=
  respects_read h ht (fun st => liftM (st.nextKey? after)) fun _ => .lift _

theorem respects_keys (h : Tablespace.ReadsRespect P R) (ht : P t) : t.keys.Respects R :=
  respects_read h ht (fun st => liftM st.keys) fun _ => .lift _

/-! ## Changes -/

theorem respects_insertLiterals (h : t.WritesRespect pin R) (names : Option (List String))
    (literals : List String) : (t.insertLiterals names literals pin).Respects R := by
  refine .bind (.lift _) fun entries => ?_
  unfold Table.insert
  dsimp only
  split
  · exact .bind (.throw _) fun _ => .bind (.lift _) fun _ => h.insertRow _
  · exact .bind (.lift _) fun _ => h.insertRow _

theorem respects_deleteEach (h : t.WritesRespect pin R) (keys : List Entry) :
    (t.deleteEach pin keys).Respects R := by
  induction keys with
  | nil => exact .pure _
  | cons key rest ih => exact .bind (h.deleteRow key) fun _ => ih

theorem respects_setEach (h : t.WritesRespect pin R) (column : Nat) (value : Entry)
    (keys : List Entry) : (t.setEach column value pin keys).Respects R := by
  induction keys with
  | nil => exact .pure _
  | cons key rest ih => exact .bind (h.updateRow key _ _) fun _ => ih

theorem respects_removeFiles (pages : List Nat) :
    (t.removeFiles pages).Respects (Tablespace.Differ n store store') := by
  induction pages with
  | nil => exact .pure _
  | cons page rest ih => exact .bind (Tablespace.respects_onDisk _) fun _ => ih

theorem respects_drop (ht : t.number ≠ n) : t.drop.Respects (Tablespace.Differ n store store') :=
  .bind (respects_onStore ht _) fun _ => .bind (Tablespace.respects_onDisk _) fun pages =>
    respects_removeFiles pages

end Table

/-! ## Moving along -/

/-- The same mover, of which something is known, over related tablespaces. -/
def Moving.Alike {τ : Type} (P : τ → Prop) (R : Tablespace → Tablespace → Prop)
    (s s' : τ × Tablespace) : Prop :=
  s.1 = s'.1 ∧ P s.1 ∧ R s.2 s'.2

namespace Moving

variable {τ ω β : Type} {P : τ → Prop} {Q : ω → Prop}

theorem respects_still {action : Action Tablespace α} (h : action.Respects R) :
    (still action : Moving τ α).Respects (Alike P R) :=
  .onPart h (fun _ _ hs => hs.2.2) fun _ _ _ _ hs hp => ⟨hs.1, hs.2.1, hp⟩

theorem respects_part {get : τ → ω} {set : ω → τ → τ} {action : Moving ω α}
    (h : action.Respects (Alike Q R)) (hget : ∀ w, P w → Q (get w))
    (hset : ∀ w m, P w → Q m → P (set m w)) : (part get set action).Respects (Alike P R) := by
  refine .onPart h ?_ ?_
  · rintro ⟨w, s⟩ ⟨_, s'⟩ ⟨rfl, hw, hs⟩
    exact ⟨rfl, hget w hw, hs⟩
  · rintro ⟨w, s⟩ ⟨_, s'⟩ ⟨m, p⟩ ⟨_, p'⟩ ⟨rfl, hw, hs⟩ ⟨rfl, hm, hp⟩
    exact ⟨rfl, hset w m hw hm, hp⟩

theorem respects_bind_mover {f : τ → Moving τ β} (h : ∀ w, P w → (f w).Respects (Alike P R)) :
    (mover >>= f).Respects (Alike P R) := by
  rintro ⟨w, s⟩ ⟨_, s'⟩ ⟨rfl, hw, hs⟩
  have hrun (p : Tablespace) : (mover : Moving τ τ).run (w, p) = (.ok w, (w, p)) := rfl
  rw [Action.run_bind_ok (hrun s), Action.run_bind_ok (hrun s')]
  exact h w hw _ _ ⟨rfl, hw, hs⟩

theorem respects_moveTo {w : τ} (hw : P w) : (moveTo w).Respects (Alike P R) :=
  .modify fun _ _ hs => ⟨rfl, hw, hs.2.2⟩

theorem respects_modify {f : τ → τ} (hf : ∀ w, P w → P (f w)) :
    (modify fun (s : τ × Tablespace) => (f s.1, s.2) : Moving τ Unit).Respects (Alike P R) :=
  .modify fun _ _ hs => ⟨congrArg f hs.1, hf _ hs.2.1, hs.2.2⟩

/-- Reading the mover and the tablespace, of which only what is the same may be used. -/
theorem respects_bind_get {f : τ × Tablespace → Moving τ β}
    (h : ∀ w s s', P w → R s s' → f (w, s) = f (w, s') ∧ (f (w, s)).Respects (Alike P R)) :
    (get >>= f).Respects (Alike P R) := by
  refine .bind_get ?_
  rintro ⟨w, s⟩ ⟨_, s'⟩ ⟨rfl, hw, hs⟩
  exact h w s s' hw hs

end Moving

namespace Walk

/-- A walk through one of certain tables. -/
def Within (P : Table → Prop) (walk : Walk) : Prop := P walk.table

theorem respects_nextKey (h : Tablespace.ReadsRespect P R) :
    nextKey.Respects (Moving.Alike (Within P) R) := by
  refine Moving.respects_bind_mover fun walk hwalk => ?_
  split
  · exact .pure _
  refine .bind (Moving.respects_still (Table.respects_nextKey? h hwalk _)) fun next => ?_
  cases next with
  | none => exact .bind (Moving.respects_moveTo hwalk) fun _ => .pure _
  | some key => exact .bind (Moving.respects_moveTo hwalk) fun _ => .pure _

theorem respects_nextRowWithin (h : Tablespace.ReadsRespect P R) (fuel : Nat) :
    (nextRowWithin fuel).Respects (Moving.Alike (Within P) R) := by
  induction fuel with
  | zero => exact .pure _
  | succ fuel ih =>
    refine .bind (respects_nextKey h) fun next => ?_
    cases next with
    | none => exact .pure _
    | some key =>
      refine Moving.respects_bind_mover fun walk hwalk => ?_
      refine .bind (Moving.respects_still (Table.respects_find? h hwalk _)) fun found => ?_
      cases found with
      | none => exact ih
      | some row => exact .pure _

theorem respects_nextRow (h : Tablespace.ReadsRespect P R) :
    nextRow.Respects (Moving.Alike (Within P) R) :=
  Moving.respects_bind_get fun _ _ _ hwalk hs =>
    ⟨congrArg (fun st : Store => nextRowWithin (st.rowCount + 1)) (h.store hwalk hs),
      respects_nextRowWithin h _⟩

end Walk

namespace Table

/-- A walk of its own. -/
theorem respects_walking (ht : P t) {action : Moving Walk α}
    (h : action.Respects (Moving.Alike (Walk.Within P) R)) :
    (t.walking action).Respects R := by
  intro s s' hs
  obtain ⟨hanswer, -, -, hafter⟩ := h (t.walk, s) (t.walk, s') ⟨rfl, ht, hs⟩
  exact ⟨hanswer, hafter⟩

theorem respects_acceptedKeys (h : Tablespace.ReadsRespect P R) (p : Predicate) (fuel : Nat) :
    (t.acceptedKeys p fuel).Respects
      (Moving.Alike (Walk.Within P) R) := by
  induction fuel with
  | zero => exact .pure _
  | succ fuel ih =>
    refine .bind (Walk.respects_nextRow h) fun next => ?_
    cases next with
    | none => exact .pure _
    | some row => exact .bind (.lift _) fun _ => .bind ih fun _ => .pure _

theorem respects_matchingKeys (h : Tablespace.ReadsRespect P R) (ht : P t) (p : Option Predicate) :
    (t.matchingKeys p).Respects R := by
  cases p with
  | none => exact respects_keys h ht
  | some p =>
    exact respects_read h ht (fun st => t.walking (t.acceptedKeys p (st.rowCount + 1))) fun _ =>
      respects_walking ht (respects_acceptedKeys h p _)

theorem respects_deleteWhere (h : Tablespace.ReadsRespect P R) (ht : P t)
    (hwrites : t.WritesRespect pin R) (p : Option Predicate) : (t.deleteWhere p pin).Respects R :=
  .bind (respects_matchingKeys h ht p) fun keys => .bind (respects_deleteEach hwrites keys) fun _ =>
    .pure _

theorem respects_updateWhere (h : Tablespace.ReadsRespect P R) (ht : P t)
    (hwrites : t.WritesRespect pin R) (name : String) (value : Operand) (p : Option Predicate) :
    (t.updateWhere name value p pin).Respects R :=
  .bind (.lift _) fun _ => .bind (respects_matchingKeys h ht p) fun _ =>
    .bind (respects_setEach hwrites _ _ _) fun _ => .pure _

end Table

end

end PageDb
