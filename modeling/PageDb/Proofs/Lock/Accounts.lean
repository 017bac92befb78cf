import PageDb.Proofs.Lock.Serving

/-!
The account of a session: the locks it holds, and the locks that are recorded of it.

Locks go by the numbers of their targets, records by the names.  A call of a session adds a lock to
its account, strikes one or clears the account, and leaves the accounts of the others alone.
`Account.Fits` says that both sides of an account agree while a session works on some targets, and
that it has no lock but those of these targets and the ones it may keep.
-/

namespace PageDb

namespace LockManager

/-- What a session holds, by number, and what is recorded of it, by name. -/
@[ext] structure Account where
  holds : LockMode → Nat → Bool
  recorded : LockMode → String → Option Nat

/-- The account of a session. -/
def account (m : LockManager) (session : Nat) : Account :=
  ⟨fun mode n => (m.lockOf n).holds mode session, m.recorded? session⟩

namespace Account

/-- A lock is added.  What was recorded under the name of its target is overwritten. -/
def gain (a : Account) (t : Target) (mode : LockMode) : Account where
  holds mode' n := if n = t.number then decide (mode' = mode) else a.holds mode' n
  recorded mode' name :=
    if name = t.name then
      if mode' = mode then some t.number
      else if mode = .exclusive then none
      else a.recorded mode' name
    else a.recorded mode' name

/-- A lock is struck. -/
def lose (a : Account) (t : Target) (mode : LockMode) : Account where
  holds mode' n := a.holds mode' n && !decide (n = t.number ∧ mode' = mode)
  recorded mode' name := if mode' = mode ∧ name = t.name then none else a.recorded mode' name

end Account

/-- Whether a request brings its session a lock that it does not hold yet. -/
def Gains (m : LockManager) (r : Request) : Prop :=
  (m.ask r).1 = .acquired ∨ (m.ask r).1 = .upgraded

instance (m : LockManager) (r : Request) : Decidable (m.Gains r) := inferInstanceAs (Decidable (_ ∨ _))

variable {m m' : LockManager} {session s n : Nat} {mode : LockMode} {name : String} {r : Request}

theorem isGranted_of_gains (h : m.Gains r) : (m.ask r).1.isGranted = true := by
  rcases h with h | h <;> rw [h] <;> rfl

/-- A session gains a lock only if it does not hold it alone. -/
theorem not_holds_of_gains (h : m.Sound) (hgains : m.Gains r) :
    (m.account r.session).holds .exclusive r.target.number = false :=
  (h.valid r.target.number).not_holds_of_new hgains

/-- Asking without gain changes no account. -/
theorem account_ask (h : m.Sound) (hold : ¬ m.Gains r) (s : Nat) :
    (m.ask r).2.account s = m.account s := by
  have hlock : (fun mode n => ((m.ask r).2.lockOf n).holds mode s) =
      fun mode n => (m.lockOf n).holds mode s := by
    funext mode n
    rw [lockOf_ask h.ordered, (h.valid r.target.number).acquire_eq_self hold]
    split
    · rename_i hn
      rw [hn]
    · rfl
  exact congrArg (Account.mk · _) hlock

/-- Asking and recording the answer adds a lock to the account of the session, or changes nothing. -/
theorem account_record_ask (h : m.Sound) (r : Request) (s : Nat) :
    ((m.ask r).2.record r (m.ask r).1).account s =
      if s = r.session ∧ m.Gains r then (m.account s).gain r.target r.mode else m.account s := by
  by_cases hgains : m.Gains r
  case neg =>
    rw [record_eq, if_neg (show ¬ (_ ∨ _) from hgains), if_neg fun hboth => hgains hboth.2]
    exact account_ask h hgains s
  have hrecorded := recorded?_record (r := r) (h.ordered.withLock r.target.number
    ((m.lockOf r.target.number).acquire r.mode r.session).2) hgains s
  have hlock (n : Nat) : ((m.ask r).2.record r (m.ask r).1).lockOf n = (m.ask r).2.lockOf n := by
    rw [lockOf, (record_frame _ r _).1, lockOf]
  have hholds (mode : LockMode) (n : Nat) :
      (((m.ask r).2.record r (m.ask r).1).lockOf n).holds mode s =
        if n = r.target.number ∧ s = r.session then decide (mode = r.mode)
        else (m.lockOf n).holds mode s := by
    rw [hlock, lockOf_ask h.ordered]
    by_cases hn : n = r.target.number
    · rw [if_pos hn, (h.valid r.target.number).holds_acquire hgains, hn]
      simp only [true_and]
    · rw [if_neg hn, if_neg fun hboth => hn hboth.1]
  simp only [account, hholds]
  by_cases hs : s = r.session
  · rw [if_pos ⟨hs, hgains⟩]
    refine Account.ext ?_ ?_
    · simp only [hs, and_true]
      rfl
    · funext mode name
      refine (hrecorded mode name).trans ?_
      simp only [hs, true_and]
      rfl
  · rw [if_neg fun hboth => hs hboth.1]
    refine Account.ext ?_ ?_
    · simp only [hs, and_false, if_false]
    · funext mode name
      refine (hrecorded mode name).trans ?_
      rw [if_neg fun hboth => hs hboth.1]
      rfl

theorem account_request (h : m.Sound) (r : Request) (s : Nat) :
    (m.request r).2.account s =
      if s = r.session ∧ m.Gains r then (m.account s).gain r.target r.mode else m.account s := by
  rw [request_eq]
  split
  · exact account_record_ask h r s
  · rename_i hrefused
    have hold : ¬ m.Gains r := fun hgains => hrefused (isGranted_of_gains hgains)
    rw [if_neg fun hboth => hold hboth.2]
    exact account_ask h hold s

/-- A retry adds a lock only if its request is the oldest. -/
theorem account_retry (h : m.Sound) (r : Request) (s : Nat) :
    (m.retry r).2.account s =
      if s = r.session ∧ m.isOldest r = true ∧ m.Gains r then (m.account s).gain r.target r.mode
      else m.account s := by
  rw [retry_eq]
  by_cases holdest : m.isOldest r = true
  case neg =>
    rw [if_neg holdest, if_neg fun hall => holdest hall.2.1]
    rfl
  simp only [holdest, if_true, true_and]
  split
  · exact account_record_ask (sound_dequeue h r) r s
  · rename_i hrefused
    have hold : ¬ m.Gains r := fun hgains => hrefused (isGranted_of_gains hgains)
    rw [if_neg fun hboth => hold hboth.2]
    exact account_ask h hold s

/-- A session that gains a lock keeps those that it holds alone. -/
theorem holds_gain (h : m.Sound) (hgains : m.Gains r)
    (hheld : (m.account r.session).holds .exclusive n = true) :
    ((m.account r.session).gain r.target r.mode).holds .exclusive n = true := by
  have hne : n ≠ r.target.number := by
    rintro rfl
    rw [not_holds_of_gains h hgains] at hheld
    cases hheld
  simpa [Account.gain, hne] using hheld

/-- Whoever holds a lock alone keeps it when a lock is asked for. -/
theorem holds_request (h : m.Sound) (r : Request) (hheld : (m.lockOf n).holds .exclusive s = true) :
    ((m.request r).2.lockOf n).holds .exclusive s = true := by
  show ((m.request r).2.account s).holds .exclusive n = true
  rw [account_request h]
  split
  · rename_i hboth
    obtain ⟨rfl, hgains⟩ := hboth
    exact holds_gain h hgains hheld
  · exact hheld

theorem holds_retry (h : m.Sound) (r : Request) (hheld : (m.lockOf n).holds .exclusive s = true) :
    ((m.retry r).2.lockOf n).holds .exclusive s = true := by
  show ((m.retry r).2.account s).holds .exclusive n = true
  rw [account_retry h]
  split
  · rename_i hall
    obtain ⟨rfl, -, hgains⟩ := hall
    exact holds_gain h hgains hheld
  · exact hheld

/-- A lock is given back if the account says that the session holds it. -/
theorem release_fst (m : LockManager) (r : Request) :
    (m.release r).1 = (m.account r.session).holds r.mode r.target.number :=
  TableLock.release_fst _ _ _

theorem account_release (h : m.Sound) (r : Request) (s : Nat) :
    (m.release r).2.account s =
      if s = r.session then (m.account s).lose r.target r.mode else m.account s := by
  have hgiven : (m.release r).2.account s = (m.givenBack r).account s := by
    rw [release_eq]
    dsimp only
    split <;> rfl
  have hrecorded := recorded?_forget (h.ordered.withLock r.target.number
    ((m.lockOf r.target.number).release r.mode r.session).2) r.session r.target.name r.mode s
  have hholds (mode : LockMode) (n : Nat) : ((m.givenBack r).lockOf n).holds mode s =
      ((m.lockOf n).holds mode s &&
        !decide (s = r.session ∧ n = r.target.number ∧ mode = r.mode)) := by
    rw [lockOf, givenBack, (forget_frame _ _ _ _).1, ← lockOf, lockOf_withLock h.ordered]
    split
    · rename_i hn
      rw [(h.valid _).holds_release, hn]
      simp only [true_and, and_comm]
    · rename_i hn
      simp [hn]
  rw [hgiven]
  simp only [account, hholds]
  by_cases hs : s = r.session
  · rw [if_pos hs]
    refine Account.ext ?_ ?_
    · simp only [hs, true_and]
      rfl
    · funext mode name
      refine (hrecorded mode name).trans ?_
      simp only [hs, true_and]
      rfl
  · rw [if_neg hs]
    refine Account.ext ?_ ?_
    · simp only [hs, false_and, decide_false, Bool.not_false, Bool.and_true]
    · funext mode name
      refine (hrecorded mode name).trans ?_
      rw [if_neg fun hall => hs hall.1]
      rfl

/-! ## Giving everything back -/

/-- The targets in a record are those that are recorded. -/
theorem mem_values_iff (h : m.Ordered) {held : Holdings} (hheld : m.records.get? session = some held)
    (mode : LockMode) (n : Nat) :
    n ∈ (held.get mode).values ↔ ∃ name, m.recorded? session mode name = some n := by
  have hholdings : m.holdings session = held := by
    rw [holdings, hheld]
    rfl
  simp only [recorded?, hholdings]
  exact SortedMap.mem_values_iff (hholdings ▸ h.holdings session mode)

theorem recorded?_of_none (h : m.records.get? session = none) (mode : LockMode) (name : String) :
    m.recorded? session mode name = none := by
  rw [recorded?, holdings, h]
  cases mode <;> rfl

/-- The targets given back are those that are recorded. -/
theorem mem_releaseAll_iff (h : m.Ordered) (session n : Nat) :
    n ∈ (m.releaseAll session).1 ↔
      ∃ mode name, (m.account session).recorded mode name = some n := by
  rw [releaseAll_eq]
  cases hheld : (m.leaveQueues session).records.get? session with
  | none =>
    have hnone : ∀ mode name, (m.account session).recorded mode name = none :=
      recorded?_of_none (m := m.leaveQueues session) hheld
    simp [hnone]
  | some held =>
    have hvalues (mode : LockMode) := mem_values_iff (h.leaveQueues session) hheld mode n
    refine List.mem_append.trans ⟨?_, ?_⟩
    · rintro (hn | hn)
      · exact ⟨.exclusive, (hvalues .exclusive).1 hn⟩
      · exact ⟨.shared, (hvalues .shared).1 hn⟩
    · rintro ⟨mode, hn⟩
      cases mode with
      | shared => exact .inr ((hvalues .shared).2 hn)
      | exclusive => exact .inl ((hvalues .exclusive).2 hn)

/-- Giving everything back clears the record, and gives up the locks that it mentions. -/
theorem account_releaseAll (h : m.Sound) (session : Nat) :
    (∀ mode name, ((m.releaseAll session).2.account session).recorded mode name = none) ∧
      ∀ mode n, ((m.releaseAll session).2.account session).holds mode n = true ↔
        (m.account session).holds mode n = true ∧
          ¬ ∃ name, (m.account session).recorded mode name = some n := by
  rw [releaseAll_eq]
  cases hheld : (m.leaveQueues session).records.get? session with
  | none =>
    have hnone : ∀ mode name, (m.account session).recorded mode name = none :=
      recorded?_of_none (m := m.leaveQueues session) hheld
    refine ⟨hnone, fun mode n => ⟨fun hn => ⟨hn, ?_⟩, And.left⟩⟩
    rintro ⟨name, hrecorded⟩
    rw [hnone] at hrecorded
    cases hrecorded
  | some held =>
    have hordered := h.ordered.leaveQueues session
    obtain ⟨-, -, hholds⟩ :=
      lockOf_freed (hordered.withoutRecord session) h.valid session held
    have hfreed (mode : LockMode) (n : Nat) := hholds n mode session
    have hvalues (mode : LockMode) (n : Nat) := mem_values_iff hordered hheld mode n
    refine ⟨fun mode name => ?_, fun mode n => ?_⟩
    · have hstruck : (((m.leaveQueues session).withoutRecord session).freed session held).records.get?
          session = none := by
        rw [(freed_frame _ _ _).2.1, withoutRecord, SortedMap.get?_erase_eq hordered.records,
          if_pos rfl]
      exact recorded?_of_none hstruck mode name
    · show ((((m.leaveQueues session).withoutRecord session).freed session held).lockOf n).holds
        mode session = true ↔ _
      rw [hfreed, Bool.and_eq_true, Bool.not_eq_true', decide_eq_false_iff_not, hvalues]
      simp only [and_true]
      rfl

theorem account_releaseAll_of_ne (h : m.Sound) (hs : s ≠ session) :
    (m.releaseAll session).2.account s = m.account s := by
  have hholds := (serves_releaseAll h session).others
  refine Account.ext ?_ ?_
  · funext mode n
    exact hholds n mode s hs
  · funext mode name
    rw [releaseAll_eq]
    cases (m.leaveQueues session).records.get? session with
    | none => rfl
    | some held =>
      have hrecords : (((m.leaveQueues session).withoutRecord session).freed session held).records =
          m.records.erase session := (freed_frame _ _ _).2.1
      show ((((((m.leaveQueues session).withoutRecord session).freed session held).records.get?
        s).getD ⟨∅, ∅⟩).get mode).get? name = _
      rw [hrecords, SortedMap.get?_erase_eq h.ordered.records, if_neg hs]
      rfl

/-! ## Accounts that fit what a session does -/

namespace Account

/-- Both sides of the account agree, for a session that locks targets in the given mode and may keep
some exclusive locks.  The names are those that the numbers stand for. -/
structure Fits (names : Nat → Option String) (kept : Nat → Prop) (targets : List Target)
    (mode : LockMode) (a : Account) : Prop where
  /-- Every lock is recorded, and nothing else is. -/
  held : ∀ mode n, a.holds mode n = true ↔ ∃ name, a.recorded mode name = some n
  named : ∀ mode name n, a.recorded mode name = some n → names n = some name
  shared : ∀ name n, a.recorded .shared name = some n → mode = .shared ∧ n ∈ targets.map Target.number
  exclusive : ∀ name n, a.recorded .exclusive name = some n →
    kept n ∨ mode = .exclusive ∧ n ∈ targets.map Target.number
  known : ∀ t ∈ targets, names t.number = some t.name
  apart : ∀ t ∈ targets, ∀ u ∈ targets, t.name = u.name → t.number = u.number
  /-- No other target of the name is recorded. -/
  own : ∀ t ∈ targets, ∀ n, a.recorded mode t.name = some n → n = t.number

variable {names names' : Nat → Option String} {kept kept' : Nat → Prop} {targets : List Target}
  {a : Account} {t : Target}

/-- An account without locks. -/
def blank : Account := ⟨fun _ _ => false, fun _ _ => none⟩

theorem fits_blank (names : Nat → Option String) (kept : Nat → Prop) :
    blank.Fits names kept [] .exclusive where
  held := by simp [blank]
  named := by simp [blank]
  shared := by simp [blank]
  exclusive := by simp [blank]
  known := by simp
  apart := by simp
  own := by simp

namespace Fits

theorem mono (h : a.Fits names kept targets mode)
    (hnames : ∀ n name, names n = some name → names' n = some name)
    (hkept : ∀ n, kept n → kept' n) : a.Fits names' kept' targets mode where
  held := h.held
  named mode name n hn := hnames n name (h.named mode name n hn)
  shared := h.shared
  exclusive name n hn := (h.exclusive name n hn).imp_left (hkept n)
  known t ht := hnames _ _ (h.known t ht)
  apart := h.apart
  own := h.own

/-- A session may begin to work on targets. -/
theorem begin (h : a.Fits names kept [] .exclusive)
    (hknown : ∀ t ∈ targets, names t.number = some t.name)
    (hapart : ∀ t ∈ targets, ∀ u ∈ targets, t.name = u.name → t.number = u.number)
    (hown : mode = .exclusive → ∀ t ∈ targets, ∀ n, a.recorded .exclusive t.name = some n →
      n = t.number) : a.Fits names kept targets mode where
  held := h.held
  named := h.named
  shared name n hn := by simpa using h.shared name n hn
  exclusive name n hn := .inl (by simpa using h.exclusive name n hn)
  known := hknown
  apart := hapart
  own t ht n hn := by
    cases mode with
    | shared => simpa using h.shared t.name n hn
    | exclusive => exact hown rfl t ht n hn

/-- A session stops working on targets once it has given them back or may keep them. -/
theorem finish (h : a.Fits names kept targets mode)
    (hshared : mode = .shared → ∀ t ∈ targets, a.recorded .shared t.name = none)
    (hexclusive : mode = .exclusive → ∀ t ∈ targets,
      a.recorded .exclusive t.name = none ∨ kept t.number) : a.Fits names kept [] .exclusive where
  held := h.held
  named := h.named
  shared name n hn := by
    obtain ⟨hmode, hin⟩ := h.shared name n hn
    obtain ⟨t, ht, rfl⟩ := List.mem_map.1 hin
    have hname := (h.named _ _ _ hn).symm.trans (h.known t ht)
    rw [Option.some.inj hname, hshared hmode t ht] at hn
    cases hn
  exclusive name n hn := by
    rcases h.exclusive name n hn with hkept | ⟨hmode, hin⟩
    · exact .inl hkept
    obtain ⟨t, ht, rfl⟩ := List.mem_map.1 hin
    have hname := (h.named _ _ _ hn).symm.trans (h.known t ht)
    rw [Option.some.inj hname] at hn
    rcases hexclusive hmode t ht with hnone | hkept
    · rw [hnone] at hn
      cases hn
    · exact .inl hkept
  known := by simp
  apart := by simp
  own := by simp

/-- A name that is recorded for a target is its own. -/
theorem name_eq (h : a.Fits names kept targets mode) (ht : t ∈ targets) {mode' : LockMode}
    {name : String} (hn : a.recorded mode' name = some t.number) : name = t.name :=
  Option.some.inj ((h.named _ _ _ hn).symm.trans (h.known t ht))

/-- What is recorded of other targets stays when a lock is gained: none of them has the name. -/
theorem recorded_gain_iff (h : a.Fits names kept targets mode) (ht : t ∈ targets)
    (hn : n ≠ t.number) (mode' : LockMode) (name : String) :
    (a.gain t mode).recorded mode' name = some n ↔ a.recorded mode' name = some n := by
  simp only [Account.gain]
  by_cases hname : name = t.name
  case neg => rw [if_neg hname]
  subst hname
  rw [if_pos rfl]
  by_cases hmode : mode' = mode
  · subst hmode
    rw [if_pos rfl]
    exact ⟨fun heq => absurd (Option.some.inj heq).symm hn, fun hold => absurd (h.own t ht n hold) hn⟩
  · rw [if_neg hmode]
    split
    · rename_i hexclusive
      subst hexclusive
      obtain rfl : mode' = .shared := by cases mode' <;> simp_all
      exact ⟨nofun, fun hold => nomatch (h.shared t.name n hold).1⟩
    · rfl

/-- What is recorded of a target once its lock is gained. -/
theorem recorded_gain_self_iff (h : a.Fits names kept targets mode) (ht : t ∈ targets)
    (hnew : a.holds .exclusive t.number = false) (mode' : LockMode) (name : String) :
    (a.gain t mode).recorded mode' name = some t.number ↔ name = t.name ∧ mode' = mode := by
  simp only [Account.gain]
  by_cases hname : name = t.name
  case neg =>
    rw [if_neg hname]
    exact ⟨fun hn => absurd (h.name_eq ht hn) hname, fun hboth => absurd hboth.1 hname⟩
  by_cases hmode : mode' = mode
  · simp [hname, hmode]
  rw [if_pos hname, if_neg hmode]
  refine ⟨fun hn => ?_, fun hboth => absurd hboth.2 hmode⟩
  split at hn
  · cases hn
  · rename_i hshared
    obtain rfl : mode' = .exclusive := by cases mode' <;> cases mode <;> simp_all
    rw [(h.held .exclusive t.number).2 ⟨name, hn⟩] at hnew
    cases hnew

/-- A session that gains the lock of one of its targets has an account that fits again. -/
theorem gain (h : a.Fits names kept targets mode) (ht : t ∈ targets)
    (hnew : a.holds .exclusive t.number = false) : (a.gain t mode).Fits names kept targets mode := by
  have hself := h.recorded_gain_self_iff ht hnew
  have hother {n : Nat} (hn : n ≠ t.number) := h.recorded_gain_iff ht hn
  have hin : t.number ∈ targets.map Target.number := List.mem_map_of_mem ht
  refine ⟨fun mode' n => ?_, fun mode' name n hn => ?_, fun name n hn => ?_, fun name n hn => ?_,
    h.known, h.apart, fun u hu n hn => ?_⟩
  all_goals by_cases hnumber : n = t.number
  · subst hnumber
    simp only [hself]
    simp [Account.gain]
  · simp only [hother hnumber, ← h.held]
    simp [Account.gain, hnumber]
  · subst hnumber
    exact ((hself _ _).1 hn).1 ▸ h.known t ht
  · exact h.named _ _ _ ((hother hnumber _ _).1 hn)
  · subst hnumber
    exact ⟨((hself _ _).1 hn).2.symm, hin⟩
  · exact h.shared _ _ ((hother hnumber _ _).1 hn)
  · subst hnumber
    exact .inr ⟨((hself _ _).1 hn).2.symm, hin⟩
  · exact h.exclusive _ _ ((hother hnumber _ _).1 hn)
  · subst hnumber
    exact h.apart t ht u hu ((hself _ _).1 hn).1.symm
  · exact h.own u hu n ((hother hnumber _ _).1 hn)

/-- A session that gives back the lock of one of its targets has an account that fits again. -/
theorem lose (h : a.Fits names kept targets mode) (ht : t ∈ targets) :
    (a.lose t mode).Fits names kept targets mode := by
  have hrecorded (mode' : LockMode) (name : String) (n : Nat) :
      (a.lose t mode).recorded mode' name = some n ↔
        a.recorded mode' name = some n ∧ ¬ (n = t.number ∧ mode' = mode) := by
    simp only [Account.lose]
    by_cases hboth : mode' = mode ∧ name = t.name
    · obtain ⟨rfl, rfl⟩ := hboth
      simp only [and_self, if_true, and_true]
      exact ⟨nofun, fun ⟨hn, hne⟩ => absurd (h.own t ht n hn) hne⟩
    · rw [if_neg hboth]
      refine ⟨fun hn => ⟨hn, ?_⟩, And.left⟩
      rintro ⟨rfl, rfl⟩
      exact hboth ⟨rfl, h.name_eq ht hn⟩
  refine ⟨fun mode' n => ?_, fun mode' name n hn => h.named _ _ _ ((hrecorded _ _ _).1 hn).1,
    fun name n hn => h.shared _ _ ((hrecorded _ _ _).1 hn).1,
    fun name n hn => h.exclusive _ _ ((hrecorded _ _ _).1 hn).1, h.known, h.apart,
    fun u hu n hn => h.own u hu n ((hrecorded _ _ _).1 hn).1⟩
  simp only [hrecorded, exists_and_right, ← h.held]
  simp only [Account.lose, Bool.and_eq_true, Bool.not_eq_true', decide_eq_false_iff_not]

end Fits

/-! ## Locks that are not recorded -/

/-- A lock that is held alone and recorded under no name. -/
def Lost (a : Account) (n : Nat) : Prop :=
  a.holds .exclusive n = true ∧ ∀ name, a.recorded .exclusive name ≠ some n

/-- A session that gains the lock of a target loses the record of the one whose name it has. -/
theorem Fits.lost_gain (h : a.Fits names kept targets mode) {n : Nat}
    (hn : a.recorded .exclusive t.name = some n) (hne : n ≠ t.number) :
    (a.gain t .exclusive).Lost n := by
  refine ⟨?_, fun name hname => ?_⟩
  · simp only [Account.gain, if_neg hne]
    exact (h.held .exclusive n).2 ⟨t.name, hn⟩
  · simp only [Account.gain, if_true] at hname
    split at hname
    · exact hne (Option.some.inj hname).symm
    · rename_i hother
      exact hother (Option.some.inj ((h.named _ _ _ hname).symm.trans (h.named _ _ _ hn)))

theorem Lost.lose {n : Nat} (h : a.Lost n) (hne : n ≠ t.number) (mode : LockMode) :
    (a.lose t mode).Lost n := by
  refine ⟨by simp [Account.lose, h.1, hne], fun name hname => ?_⟩
  simp only [Account.lose] at hname
  split at hname
  · cases hname
  · exact h.2 name hname

end Account

/-- A lock that is not recorded is not given back. -/
theorem Account.Lost.releaseAll (h : m.Sound) (hlost : (m.account session).Lost n) :
    ((m.releaseAll session).2.lockOf n).holds .exclusive session = true :=
  ((account_releaseAll h session).2 .exclusive n).2 ⟨hlost.1, fun ⟨name, hname⟩ => hlost.2 name hname⟩

/-- A session that asks for an exclusive lock that it does not hold, and is not refused, gains it. -/
theorem gains_of_granted (h : m.Sound) (hmode : r.mode = .exclusive)
    (hgranted : (m.request r).1 = true)
    (hnot : (m.account r.session).holds .exclusive r.target.number = false) : m.Gains r := by
  refine Decidable.byContradiction fun hold => ?_
  have hsame : (m.request r).2.account r.session = m.account r.session := by
    rw [account_request h, if_neg fun hboth => hold hboth.2]
  have hguards : ((m.request r).2.account r.session).holds .exclusive r.target.number = true := by
    rcases guards_request h hgranted with hholds | hholds
    · exact hmode ▸ hholds
    · exact hholds
  rw [hsame, hnot] at hguards
  cases hguards

theorem account_empty (session : Nat) : ({} : LockManager).account session = .blank := by
  refine Account.ext ?_ ?_
  · funext mode n
    cases mode <;> rfl
  · funext mode name
    cases mode <;> rfl

/-- A session whose account agrees gives back all that it holds. -/
theorem account_releaseAll_eq_blank (h : m.Sound) {names : Nat → Option String} {kept : Nat → Prop}
    {targets : List Target} (hfits : (m.account session).Fits names kept targets mode) :
    (m.releaseAll session).2.account session = .blank := by
  obtain ⟨hnone, hholds⟩ := account_releaseAll h session
  refine Account.ext ?_ ?_
  · funext mode n
    refine Bool.eq_false_iff.2 fun hn => ?_
    obtain ⟨hheld, hnot⟩ := (hholds mode n).1 hn
    exact hnot ((hfits.held mode n).1 hheld)
  · funext mode name
    exact hnone mode name

end LockManager

end PageDb
