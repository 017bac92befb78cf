import PageDb.Config
import PageDb.Proofs.Store.Persistence
import PageDb.Proofs.Store.Rows

/-!
A store answers as a plain ordered map does.

`Plain` maps keys to the entries of their rows and knows nothing of pages and files.  For every run
of calls on a new store, over a disk that may refuse any write, each call answers what the plain map
answers, `persist` excepted, which may fail.
-/

namespace PageDb

/-! ## The plain map -/

/-- The entries of all rows, by key. -/
abbrev Plain := Index (List Entry)

namespace Plain

/-- Adds a row under its key, which must be new. -/
def add (primary : Nat) (m : Plain) (entries : List Entry) : Result Plain :=
  match entries[primary]? with
  | none => .error (.schemaMismatch (.noKeyColumn entries.length primary))
  | some key => if m.contains key then .error (.duplicateKey key) else .ok (m.insert key entries)

/-- Removes the row of a key. -/
def delete (m : Plain) (key : Entry) : Result Plain :=
  match m.get? key with
  | none => .error (.keyNotFound key)
  | some _ => .ok (m.erase key)

/-- Sets columns in the row of a key.  The row is found under its new key from then on, which no
other row may have. -/
def update (primary : Nat) (m : Plain) (key : Entry) (targets : List Nat) (values : List Entry) :
    Result Plain :=
  if targets.length ≠ values.length then .error (.lengthMismatch targets.length values.length)
  else
    match m.get? key with
    | none => .error (.keyNotFound key)
    | some entries =>
      let changed := Shelf.assign entries (targets.zip values)
      let new := (changed[primary]?).getD .null
      if new.same key = false ∧ m.contains new = true then .error (.duplicateKey new)
      else
        match targets.find? fun column => decide (entries.length ≤ column) with
        | some column => .error (.schemaMismatch (.noColumn entries.length column))
        | none =>
          .ok (if new.same key then m.modify key fun _ => changed else (m.erase key).insert new changed)

end Plain

/-! ## Calls -/

/-- What a store can be asked for. -/
inductive StoreCall where
  | insert (entries : List Entry) (pin : Bool)
  | delete (key : Entry) (pin : Bool)
  | update (key : Entry) (targets : List Nat) (values : List Entry) (pin : Bool)
  | get (key : Entry)
  | keys
  | nextKey (after : Option Entry)
  | size
  | persist
  | unpin
deriving DecidableEq

/-- What a call answers if it succeeds. -/
inductive StoreAnswer where
  | done
  | row (entries : List Entry)
  | keys (keys : List Entry)
  | key (key : Option Entry)
  | count (count : Nat)
deriving DecidableEq

/-- The keys of a call are of one column type, and no column is a target twice. -/
def StoreCall.Typed (t : ColumnType) (primary : Nat) : StoreCall → Prop
  | .insert entries _ => ∀ key, entries[primary]? = some key → key.fits t
  | .delete key _ => key.fits t
  | .update key targets values _ =>
    key.fits t ∧ targets.Nodup ∧ ∀ v, (primary, v) ∈ targets.zip values → v.fits t
  | .get key => key.fits t
  | _ => True

namespace Shelf

/-- Runs a call on a shelf. -/
def call (primary : Nat) : StoreCall → Action Shelf StoreAnswer
  | .insert entries pin => do insertRow entries primary pin; pure .done
  | .delete key pin => do deleteRow key primary pin; pure .done
  | .update key targets values pin => do updateRow key primary targets values pin; pure .done
  | .get key => do return .row (← getRow key primary).entries
  | .keys => do return .keys (← (← getStore).keys)
  | .nextKey after => do return .key (← (← getStore).nextKey? after)
  | .size => do return .count (← getStore).rowCount
  | .persist => do let _ ← persist; pure .done
  | .unpin => do modifyStore Store.unpin; pure .done

/-- The shelf after calls, whether they failed or not. -/
def after (primary : Nat) (calls : List StoreCall) (sh : Shelf) : Shelf :=
  calls.foldl (fun sh c => ((call primary c).run sh).2) sh

end Shelf

namespace Plain

/-- The answer of a call on the plain map, and the map after it. -/
def call (primary : Nat) (m : Plain) : StoreCall → Result StoreAnswer × Plain
  | .insert entries _ => change m (add primary m entries)
  | .delete key _ => change m (delete m key)
  | .update key targets values _ => change m (update primary m key targets values)
  | .get key =>
    match m.get? key with
    | none => (.error (.keyNotFound key), m)
    | some entries => (.ok (.row entries), m)
  | .keys => (.ok (.keys m.keys), m)
  | .nextKey after => (.ok (.key (m.nextKey? after)), m)
  | .size => (.ok (.count m.size), m)
  | .persist => (.ok .done, m)
  | .unpin => (.ok .done, m)
where
  /-- A change that fails leaves the map as it was. -/
  change (m : Plain) : Result Plain → Result StoreAnswer × Plain
    | .ok changed => (.ok .done, changed)
    | .error e => (.error e, m)

/-- The plain map after calls. -/
def after (primary : Nat) (calls : List StoreCall) (m : Plain) : Plain :=
  calls.foldl (fun m c => (call primary m c).2) m

end Plain

/-! ## One call -/

namespace Shelf

variable {t : ColumnType} {primary : Nat} {sh : Shelf}

/-- The plain map that a shelf stands for. -/
def plain (primary : Nat) (sh : Shelf) : Plain := (sh.rows primary).mapValues Row.entries

theorem get?_plain (primary : Nat) (sh : Shelf) (key : Entry) :
    (sh.plain primary).get? key = ((sh.rows primary).get? key).map Row.entries :=
  SortedMap.get?_mapValues _ _ key

theorem contains_plain (primary : Nat) (sh : Shelf) (key : Entry) :
    (sh.plain primary).contains key = (sh.rows primary).contains key :=
  SortedMap.contains_mapValues _ _ key

theorem keys_plain (primary : Nat) (sh : Shelf) : (sh.plain primary).keys = sh.index.keys :=
  (SortedMap.keys_mapValues _ _).trans (keys_rows primary sh)

theorem Moves.plain {sh' : Shelf} (h : Moves primary sh sh') :
    sh'.plain primary = sh.plain primary := by
  rw [Shelf.plain, h.rows, Shelf.plain]

/-- Inserting, on the shelf and on the plain map. -/
theorem Sound.call_insert (h : Sound t primary 0 sh) {entries : List Entry}
    (hkey : ∀ key, entries[primary]? = some key → key.fits t) (pin : Bool) :
    ∃ r sh', (call primary (.insert entries pin)).run sh = (r, sh') ∧ Sound t primary 0 sh' ∧
      (r, sh'.plain primary) = Plain.call primary (sh.plain primary) (.insert entries pin) := by
  simp only [call, Plain.call, Plain.add]
  cases hget : entries[primary]? with
  | none =>
    exact ⟨_, sh, Action.run_bind_error (insertRow_noKey hget pin sh), h, rfl⟩
  | some key =>
    simp only [contains_plain]
    cases hin : (sh.rows primary).contains key with
    | true =>
      exact ⟨_, sh, Action.run_bind_error (h.insertRow_duplicate hget hin pin), h, rfl⟩
    | false =>
      obtain ⟨n, sh', hrun, hsound, -, hrows, -⟩ := h.insertRow hget (hkey key hget) hin pin
      refine ⟨_, sh', Action.run_bind_ok hrun, hsound, ?_⟩
      rw [Shelf.plain, hrows, SortedMap.mapValues_insert]
      rfl

theorem Sound.call_delete (h : Sound t primary 0 sh) {key : Entry} (hkey : key.fits t)
    (pin : Bool) :
    ∃ r sh', (call primary (.delete key pin)).run sh = (r, sh') ∧ Sound t primary 0 sh' ∧
      (r, sh'.plain primary) = Plain.call primary (sh.plain primary) (.delete key pin) := by
  simp only [call, Plain.call, Plain.delete, get?_plain]
  cases hrow : (sh.rows primary).get? key with
  | none => exact ⟨_, sh, Action.run_bind_error (h.deleteRow_notFound hrow pin), h, rfl⟩
  | some row =>
    obtain ⟨sh', hrun, hsound, -, -, hrows, -⟩ := h.deleteRow hkey hrow pin
    refine ⟨_, sh', Action.run_bind_ok hrun, hsound, ?_⟩
    rw [Shelf.plain, hrows, SortedMap.mapValues_erase]
    rfl

theorem plain_changedRows (rows : SortedMap Entry Row) (key : Entry) (row : Row) :
    (changedRows primary rows key row).mapValues Row.entries =
      if (row.keyAt primary).same key then
        (rows.mapValues Row.entries).modify key fun _ => row.entries
      else ((rows.mapValues Row.entries).erase key).insert (row.keyAt primary) row.entries := by
  unfold changedRows
  split
  · rw [SortedMap.mapValues_modify]
  · rw [SortedMap.mapValues_insert, SortedMap.mapValues_erase]

theorem Sound.call_update (h : Sound t primary 0 sh) {key : Entry} {targets : List Nat}
    {values : List Entry} (hkey : key.fits t) (hdistinct : targets.Nodup)
    (hvalues : ∀ v, (primary, v) ∈ targets.zip values → v.fits t) (pin : Bool) :
    ∃ r sh', (call primary (.update key targets values pin)).run sh = (r, sh') ∧
      Sound t primary 0 sh' ∧ (r, sh'.plain primary) =
        Plain.call primary (sh.plain primary) (.update key targets values pin) := by
  simp only [call, Plain.call, Plain.update, get?_plain, contains_plain]
  by_cases hlength : targets.length = values.length
  case neg =>
    simp only [hlength, ne_eq, not_false_eq_true, if_true]
    exact ⟨_, sh, Action.run_bind_error (updateRow_length hlength pin sh), h, rfl⟩
  case pos =>
    simp only [hlength, ne_eq, not_true_eq_false, if_false]
    cases hrow : (sh.rows primary).get? key with
    | none =>
      exact ⟨_, sh, Action.run_bind_error (h.updateRow_notFound hrow hlength pin), h, rfl⟩
    | some row =>
      obtain ⟨changed, hchanged⟩ : ∃ changed : Row,
        changed = { row with entries := assign row.entries (targets.zip values) } := ⟨_, rfl⟩
      have hentries : assign row.entries (targets.zip values) = changed.entries := by rw [hchanged]
      have hnew : (changed.entries[primary]?).getD .null = changed.keyAt primary := rfl
      simp only [Option.map_some, hentries, hnew]
      by_cases hduplicate : (changed.keyAt primary).same key = false ∧
          (sh.rows primary).contains (changed.keyAt primary) = true
      case pos =>
        obtain ⟨sh', hrun, hsound, hmoves⟩ := h.updateRow_duplicate hkey hrow hdistinct hlength
          hvalues hchanged hduplicate.1 hduplicate.2 pin
        refine ⟨_, sh', Action.run_bind_error hrun, hsound, ?_⟩
        rw [if_pos hduplicate, hmoves.plain]
        rfl
      case neg =>
        have hfree : (changed.keyAt primary).same key = true ∨
            (sh.rows primary).contains (changed.keyAt primary) = false := by
          cases hsame : (changed.keyAt primary).same key with
          | true => exact .inl rfl
          | false => exact .inr (Bool.eq_false_iff.2 fun hin => hduplicate ⟨hsame, hin⟩)
        rw [if_neg hduplicate]
        cases hcolumn : targets.find? fun column => decide (row.entries.length ≤ column) with
        | some column =>
          obtain ⟨sh', hrun, hsound, hmoves⟩ := h.updateRow_noColumn hkey hrow hdistinct hlength
            hvalues hchanged hfree hcolumn pin
          exact ⟨_, sh', Action.run_bind_error hrun, hsound, by rw [hmoves.plain]; rfl⟩
        | none =>
          obtain ⟨sh', hrun, hsound, -, -, hrows, -⟩ := h.updateRow hkey hrow hdistinct hlength hvalues
            hchanged hfree hcolumn pin
          refine ⟨_, sh', Action.run_bind_ok hrun, hsound, ?_⟩
          rw [Shelf.plain, hrows, plain_changedRows]
          rfl

/-- Every call keeps a shelf sound, changes its plain map as the plain map's call does and, unless
it is `persist`, answers as that call does. -/
theorem Sound.call (h : Sound t primary 0 sh) {c : StoreCall} (hc : c.Typed t primary) :
    ∃ r sh', (Shelf.call primary c).run sh = (r, sh') ∧ Sound t primary 0 sh' ∧
      sh'.plain primary = (Plain.call primary (sh.plain primary) c).2 ∧
      (c ≠ .persist → r = (Plain.call primary (sh.plain primary) c).1) := by
  cases c with
  | insert entries pin =>
    obtain ⟨r, sh', hrun, hsound, heq⟩ := h.call_insert hc pin
    exact ⟨r, sh', hrun, hsound, by rw [← heq], fun _ => by rw [← heq]⟩
  | delete key pin =>
    obtain ⟨r, sh', hrun, hsound, heq⟩ := h.call_delete hc pin
    exact ⟨r, sh', hrun, hsound, by rw [← heq], fun _ => by rw [← heq]⟩
  | update key targets values pin =>
    obtain ⟨r, sh', hrun, hsound, heq⟩ := h.call_update hc.1 hc.2.1 hc.2.2 pin
    exact ⟨r, sh', hrun, hsound, by rw [← heq], fun _ => by rw [← heq]⟩
  | get key =>
    simp only [Shelf.call, Plain.call, get?_plain]
    cases hrow : (sh.rows primary).get? key with
    | none =>
      exact ⟨_, sh, Action.run_bind_error (h.getRow_notFound hrow), h, rfl, fun _ => rfl⟩
    | some row =>
      obtain ⟨sh', hrun, hsound, hmoves⟩ := h.getRow hrow
      exact ⟨_, sh', Action.run_bind_ok hrun, hsound, hmoves.plain, fun _ => rfl⟩
  | keys =>
    refine ⟨.ok (.keys sh.index.keys), sh, ?_, h, rfl, fun _ => ?_⟩
    · simp only [Shelf.call, Action.run_bind, run_getStore, Action.run_lift, Store.keys,
        h.liveIndex]
      rfl
    · simp only [Plain.call, keys_plain]
  | nextKey after =>
    refine ⟨.ok (.key (sh.index.nextKey? after)), sh, ?_, h, rfl, fun _ => ?_⟩
    · simp only [Shelf.call, Action.run_bind, run_getStore, Action.run_lift, Store.nextKey?,
        h.liveIndex]
      rfl
    · simp only [Plain.call, SortedMap.nextKey?_congr (keys_plain primary sh)]
  | size =>
    refine ⟨.ok (.count sh.store.rowCount), sh, rfl, h, rfl, fun _ => ?_⟩
    simp only [Plain.call, SortedMap.size_eq_of_keys (keys_plain primary sh), Store.rowCount, h.live]
  | persist =>
    obtain ⟨r, sh', hrun, hsound, hmoves, -⟩ := h.persist
    cases r with
    | error e =>
      exact ⟨_, sh', Action.run_bind_error hrun, hsound, hmoves.plain, by simp⟩
    | ok count => exact ⟨_, sh', Action.run_bind_ok hrun, hsound, hmoves.plain, by simp⟩
  | unpin =>
    obtain ⟨hsound, hmoves⟩ := h.unpin
    exact ⟨_, _, rfl, hsound, hmoves.plain, fun _ => rfl⟩

/-! ## Runs of calls -/

/-- A new store is sound, whatever files there are. -/
theorem sound_new (t : ColumnType) (primary : Nat) (config : Config) (database table : String)
    {disk : Disk} (hdisk : disk.directory.Ordered) :
    Sound t primary 0 ⟨config.newStore database table, disk⟩ where
  live := rfl
  pages := SortedMap.ascending_empty
  agree :=
    { ascending := SortedMap.ascending_empty
      within := by rintro n p ⟨⟩
      inMemory := by rintro n p ⟨⟩
      clean := by rintro n p ⟨⟩
      filed := fun _ hpos hle => absurd hpos (by simpa [Config.newStore] using hle)
      found := by rintro k slot - ⟨⟩ }
  tracks := .empty
  ordered := hdisk

/-- Calls keep a shelf sound and do to its plain map what they do to any. -/
theorem Sound.after {calls : List StoreCall} (h : Sound t primary 0 sh)
    (hcalls : ∀ c ∈ calls, c.Typed t primary) :
    Sound t primary 0 (after primary calls sh) ∧
      (after primary calls sh).plain primary = Plain.after primary calls (sh.plain primary) := by
  induction calls generalizing sh with
  | nil => exact ⟨h, rfl⟩
  | cons c rest ih =>
    obtain ⟨r, sh', hrun, hsound, hplain, -⟩ := h.call (hcalls c (by simp))
    obtain ⟨hrest, hplain'⟩ := ih hsound fun d hd => hcalls d (by simp [hd])
    have hstep : ((Shelf.call primary c).run sh).2 = sh' := by rw [hrun]
    simp only [Shelf.after, List.foldl_cons, hstep]
    refine ⟨hrest, hplain'.trans ?_⟩
    rw [hplain]
    rfl

end Shelf

/-- The errors of the plain map. -/
def Plain.Fault (e : Error) : Prop :=
  (∃ key, e = .duplicateKey key) ∨ (∃ key, e = .keyNotFound key) ∨
    (∃ fault, e = .schemaMismatch fault) ∨ ∃ expected actual, e = .lengthMismatch expected actual

theorem Plain.fault_of_call {primary : Nat} {m : Plain} {c : StoreCall} {e : Error}
    (h : (Plain.call primary m c).1 = .error e) : Plain.Fault e := by
  have hchange {r : Result Plain} (hr : ∀ e, r = .error e → Fault e)
      (h : (call.change m r).1 = .error e) : Fault e := by
    cases r with
    | ok changed => cases h
    | error e' =>
      obtain rfl : e' = e := by simpa [call.change] using h
      exact hr e' rfl
  cases c with
  | insert entries pin =>
    refine hchange (fun e he => ?_) h
    unfold add at he
    split at he
    · cases he
      exact .inr (.inr (.inl ⟨_, rfl⟩))
    · split at he <;> cases he
      exact .inl ⟨_, rfl⟩
  | delete key pin =>
    refine hchange (fun e he => ?_) h
    unfold delete at he
    split at he <;> cases he
    exact .inr (.inl ⟨_, rfl⟩)
  | update key targets values pin =>
    refine hchange (fun e he => ?_) h
    unfold update at he
    split at he
    · cases he
      exact .inr (.inr (.inr ⟨_, _, rfl⟩))
    split at he
    · cases he
      exact .inr (.inl ⟨_, rfl⟩)
    dsimp only at he
    split at he
    · cases he
      exact .inl ⟨_, rfl⟩
    split at he <;> cases he
    exact .inr (.inr (.inl ⟨_, rfl⟩))
  | get key =>
    simp only [call] at h
    split at h <;> cases h
    exact .inr (.inl ⟨_, rfl⟩)
  | _ => cases h

/-- After any calls on a new store, over any disk and with any budget and number of pages in memory,
every call but `persist` answers as the plain map's call does after the same calls.  So its errors
are those of the plain map, and none of them is about a page. -/
theorem call_answers_as_plain_map (t : ColumnType) (primary : Nat) (config : Config)
    (database table : String) (disk : Disk) (hdisk : disk.directory.Ordered)
    {calls : List StoreCall} (hcalls : ∀ c ∈ calls, c.Typed t primary) {c : StoreCall}
    (hc : c.Typed t primary) (hpersist : c ≠ .persist) :
    let sh := Shelf.after primary calls ⟨config.newStore database table, disk⟩
    let answer := ((Shelf.call primary c).run sh).1
    answer = (Plain.call primary (Plain.after primary calls ∅) c).1 ∧
      ∀ e, answer = .error e → Plain.Fault e := by
  intro sh answer
  obtain ⟨hsound, hplain⟩ := (Shelf.sound_new t primary config database table hdisk).after hcalls
  obtain ⟨r, sh', hrun, -, -, hanswer⟩ := hsound.call hc
  have heq : answer = (Plain.call primary (Plain.after primary calls ∅) c).1 := by
    have hr : answer = r := congrArg Prod.fst hrun
    rw [hr, hanswer hpersist, hplain]
    rfl
  exact ⟨heq, fun e he => Plain.fault_of_call (heq ▸ he)⟩

/-- One page in memory, rows on three pages, a write that is refused, and a change of key: the row
that was evicted first comes back as it was stored. -/
theorem evicted_row_comes_back :
    ((Shelf.call 0 (.get (.int 1))).run
      (Shelf.after 0
        [.insert [.int 1, .text "left"] false, .insert [.int 2, .long 7] false,
          .insert [.int 3, .null] true, .update (.int 2) [1, 0] [.null, .int 4] false, .persist,
          .unpin]
        ⟨({ budget := 4, cap := 1 } : Config).newStore "shop" "items",
          { outages := [true, false, true] }⟩)).1 = .ok (.row [.int 1, .text "left"]) :=
  (call_answers_as_plain_map .int 0 _ "shop" "items" { outages := [true, false, true] }
    Directory.ordered_empty
    (by simp [StoreCall.Typed, Entry.fits, Entry.type?]) (c := .get (.int 1))
    (by simp [StoreCall.Typed, Entry.fits, Entry.type?]) (by decide)).1.trans rfl

end PageDb
