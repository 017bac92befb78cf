import PageDb.Error

/-!
Running actions: one equation for each way to build an action from others.

`Action.Keeps` is about invariants: an action keeps one, and answers only what is allowed, if its
steps do.  `Action.Respects` is about pairs of states: an action cannot tell related states apart if
its steps cannot.  An invariant is the special case of a pair of two equal states.  `Action.Leads` is about
one run: where an action answers and where it fails.
-/

namespace PageDb

namespace Result

variable {α β : Type}

@[simp] theorem ok_bind (a : α) (f : α → Result β) : ((.ok a : Result α) >>= f) = f a := rfl

@[simp] theorem error_bind (e : Error) (f : α → Result β) :
    ((.error e : Result α) >>= f) = .error e := rfl

/-- A sequence succeeds where its two steps do. -/
theorem bind_eq_ok {x : Result α} {f : α → Result β} {b : β} :
    (x >>= f) = .ok b ↔ ∃ a, x = .ok a ∧ f a = .ok b := by
  cases x with
  | error e => simp
  | ok a => simp

theorem map_eq_ok {x : Result α} {f : α → β} {b : β} :
    x.map f = .ok b ↔ ∃ a, x = .ok a ∧ f a = b := by
  cases x with
  | error e => simp [Except.map]
  | ok a => simp [Except.map]

end Result

namespace Action

variable {σ α β : Type}

theorem run_pure (a : α) (s : σ) : (pure a : Action σ α).run s = (.ok a, s) := rfl

theorem run_bind (x : Action σ α) (f : α → Action σ β) (s : σ) :
    (x >>= f).run s =
      match x.run s with
      | (.ok a, s') => (f a).run s'
      | (.error e, s') => (.error e, s') := by
  cases h : x.run s with
  | mk r s' =>
    rw [ExceptT.run_bind]
    show (StateT.bind x.run _) s = _
    cases r <;> simp only [StateT.bind, h] <;> rfl

/-- After a step that succeeds comes the rest. -/
theorem run_bind_ok {x : Action σ α} {f : α → Action σ β} {s s' : σ} {a : α}
    (h : x.run s = (.ok a, s')) : (x >>= f).run s = (f a).run s' := by
  rw [run_bind, h]

/-- A step that fails ends the sequence. -/
theorem run_bind_error {x : Action σ α} {f : α → Action σ β} {s s' : σ} {e : Error}
    (h : x.run s = (.error e, s')) : (x >>= f).run s = (.error e, s') := by
  rw [run_bind, h]

/-- A sequence that succeeds has come through its first step. -/
theorem exists_of_run_bind {x : Action σ α} {f : α → Action σ β} {s s' : σ} {b : β}
    (h : (x >>= f).run s = (.ok b, s')) :
    ∃ a s₁, x.run s = (.ok a, s₁) ∧ (f a).run s₁ = (.ok b, s') := by
  rw [run_bind] at h
  split at h
  · rename_i a s₁ hx
    exact ⟨a, s₁, hx, h⟩
  · cases h

/-- What an action does when its result is changed. -/
theorem run_bind_pure (x : Action σ α) (f : α → β) (s : σ) :
    (x >>= fun a => pure (f a)).run s = ((x.run s).1.map f, (x.run s).2) := by
  rw [run_bind]
  rcases x.run s with ⟨_ | _, _⟩ <;> rfl

/-- What an action answers when its result is changed. -/
theorem run_map (x : Action σ α) (f : α → β) (s : σ) :
    ((x >>= fun a => pure (f a)).run s).1 = (x.run s).1.map f := by
  rw [run_bind_pure]

theorem run_throw (e : Error) (s : σ) : (throw e : Action σ α).run s = (.error e, s) := rfl

theorem run_get (s : σ) : (get : Action σ σ).run s = (.ok s, s) := rfl

theorem run_set (s s' : σ) : (set s' : Action σ PUnit).run s = (.ok (), s') := rfl

theorem run_modify (f : σ → σ) (s : σ) : (modify f : Action σ PUnit).run s = (.ok (), f s) := rfl

/-- A result that is used in an action changes nothing. -/
theorem run_lift (r : Result α) (s : σ) : (liftM r : Action σ α).run s = (r, s) := rfl

/-- A sequence that succeeds has used a result that is there. -/
theorem exists_of_run_lift_bind {r : Result α} {f : α → Action σ β} {s s' : σ} {b : β}
    (h : ((liftM r : Action σ α) >>= f).run s = (.ok b, s')) :
    ∃ a, r = .ok a ∧ (f a).run s = (.ok b, s') := by
  cases r with
  | error e => cases (run_bind_error (run_lift _ s)).symm.trans h
  | ok a => exact ⟨a, rfl, (run_bind_ok (run_lift _ s)).symm.trans h⟩

/-! ## Invariants -/

/-- Whether the action fails or not the invariant holds afterwards, and what it answers is as
`post` says. -/
def Keeps (I : σ → Prop) (a : Action σ α) (post : α → Prop) : Prop :=
  ∀ s, I s → I (a.run s).2 ∧ ∀ x, (a.run s).1 = .ok x → post x

namespace Keeps

variable {I : σ → Prop} {a : Action σ α} {f : α → Action σ β} {P Q : α → Prop} {R : β → Prop}

theorem of_run (h : ∀ s, I s → ∃ r s', a.run s = (r, s') ∧ I s' ∧ ∀ x, r = .ok x → P x) :
    Keeps I a P := by
  intro s hs
  obtain ⟨r, s', hrun, hs', hpost⟩ := h s hs
  rw [hrun]
  exact ⟨hs', hpost⟩

theorem pure {x : α} (h : P x) : Keeps I (pure x) P := by
  refine of_run fun s hs => ⟨_, s, run_pure x s, hs, ?_⟩
  rintro _ ⟨⟩
  exact h

theorem throw (e : Error) : Keeps I (throw e : Action σ α) P :=
  of_run fun s hs => ⟨_, s, run_throw e s, hs, by simp⟩

theorem lift {r : Result α} (h : ∀ x, r = .ok x → P x) : Keeps I (liftM r : Action σ α) P :=
  of_run fun s hs => ⟨r, s, run_lift r s, hs, h⟩

/-- What is known of a state under the invariant is known of the state that is read. -/
theorem get {P : σ → Prop} (h : ∀ s, I s → P s) : Keeps I (get : Action σ σ) P := by
  refine of_run fun s hs => ⟨_, s, run_get s, hs, ?_⟩
  rintro _ ⟨⟩
  exact h s hs

theorem bind (ha : Keeps I a P) (hf : ∀ x, P x → Keeps I (f x) R) : Keeps I (a >>= f) R := by
  intro s hs
  obtain ⟨hs', hpost⟩ := ha s hs
  cases hrun : a.run s with
  | mk r s' =>
    rw [hrun] at hs' hpost
    cases r with
    | error e =>
      rw [run_bind_error hrun]
      exact ⟨hs', by simp⟩
    | ok x =>
      rw [run_bind_ok hrun]
      exact hf x (hpost x rfl) s' hs'

/-- An error in one case, before the rest. -/
theorem throwIf {c : Prop} [Decidable c] {e : Error} (ha : Keeps I a P) :
    Keeps I (if c then (MonadExcept.throw e : Action σ Unit) >>= fun _ => a else a) P := by
  split
  · exact .bind (P := fun _ => True) (.throw e) fun _ _ => ha
  · exact ha

/-- Looking at whether an action succeeds. -/
theorem attempt (ha : Keeps I a P) :
    Keeps I a.attempt fun r => ∀ x, r = .ok x → P x := by
  refine of_run fun s hs => ⟨_, _, run_attempt a s, (ha s hs).1, ?_⟩
  rintro _ ⟨⟩
  exact (ha s hs).2

end Keeps

/-! ## States that look the same -/

/-- From related states the action answers the same and leaves related states. -/
def Respects (R : σ → σ → Prop) (a : Action σ α) : Prop :=
  ∀ s s', R s s' → (a.run s).1 = (a.run s').1 ∧ R (a.run s).2 (a.run s').2

namespace Respects

variable {R : σ → σ → Prop} {a : Action σ α} {f : α → Action σ β}

theorem pure (x : α) : Respects R (pure x : Action σ α) := fun _ _ h => ⟨rfl, h⟩

theorem throw (e : Error) : Respects R (throw e : Action σ α) := fun _ _ h => ⟨rfl, h⟩

theorem lift (r : Result α) : Respects R (liftM r : Action σ α) := fun _ _ h => ⟨rfl, h⟩

theorem modify {f : σ → σ} (hf : ∀ s s', R s s' → R (f s) (f s')) :
    Respects R (modify f : Action σ PUnit) := fun s s' h => ⟨rfl, hf s s' h⟩

theorem attempt (ha : Respects R a) : Respects R a.attempt := by
  intro s s' h
  obtain ⟨hanswer, hafter⟩ := ha s s' h
  simp only [run_attempt]
  exact ⟨congrArg _ hanswer, hafter⟩

theorem bind (ha : Respects R a) (hf : ∀ x, Respects R (f x)) : Respects R (a >>= f) := by
  intro s s' h
  obtain ⟨hanswer, hafter⟩ := ha s s' h
  rw [run_bind, run_bind]
  rcases hrun : a.run s with ⟨r, t⟩
  rcases hrun' : a.run s' with ⟨r', t'⟩
  rw [hrun, hrun'] at hanswer hafter
  obtain rfl : r = r' := hanswer
  cases r with
  | error e => exact ⟨rfl, hafter⟩
  | ok x => exact hf x t t' hafter

/-- A state that is read may be used where related states would do as well. -/
theorem bind_get {f : σ → Action σ β}
    (hf : ∀ s s', R s s' → f s = f s' ∧ Respects R (f s)) : Respects R (get >>= f) := by
  intro s s' h
  obtain ⟨heq, hrespects⟩ := hf s s' h
  rw [run_bind_ok (run_get s), run_bind_ok (run_get s'), ← heq]
  exact hrespects s s' h

/-- An action on a part. -/
theorem onPart {τ : Type} {S : τ → τ → Prop} {get : σ → τ} {set : τ → σ → σ} {a : Action τ α}
    (ha : Respects S a) (hget : ∀ s s', R s s' → S (get s) (get s'))
    (hset : ∀ s s' p p', R s s' → S p p' → R (set p s) (set p' s')) :
    Respects R (a.onPart get set) := by
  intro s s' h
  obtain ⟨hanswer, hafter⟩ := ha _ _ (hget s s' h)
  simp only [run_onPart]
  exact ⟨hanswer, hset s s' _ _ h hafter⟩

end Respects

/-! ## Invariants as relations -/

/-- The same state, in which an invariant holds. -/
def Same (I : σ → Prop) (s s' : σ) : Prop := s = s' ∧ I s

theorem Keeps.respects {I : σ → Prop} {a : Action σ α} {P : α → Prop} (h : Keeps I a P) :
    Respects (Same I) a := by
  rintro s _ ⟨rfl, hs⟩
  exact ⟨rfl, rfl, (h s hs).1⟩

theorem Respects.keeps {I : σ → Prop} {a : Action σ α} (h : Respects (Same I) a) :
    Keeps I a fun _ => True :=
  fun s hs => ⟨(h s s ⟨rfl, hs⟩).2.2, fun _ _ => trivial⟩

/-! ## Where a run leads -/

/-- From the state the action answers as `Q` says, or it fails and leaves a state as `E` says. -/
def Leads (a : Action σ α) (s : σ) (Q : α → σ → Prop) (E : σ → Prop) : Prop :=
  match a.run s with
  | (.ok x, s') => Q x s'
  | (.error _, s') => E s'

namespace Leads

variable {a : Action σ α} {f : α → Action σ β} {s : σ} {P Q : α → σ → Prop} {R : β → σ → Prop}
  {E : σ → Prop}

theorem pure {x : α} (h : Q x s) : Leads (pure x) s Q E := h

theorem lift {r : Result α} (hok : ∀ x, r = .ok x → Q x s) (herror : E s) :
    Leads (liftM r : Action σ α) s Q E := by
  cases r with
  | ok x => exact hok x rfl
  | error e => exact herror

/-- Anything may happen. -/
theorem any (a : Action σ α) (s : σ) : Leads a s (fun _ _ => True) fun _ => True := by
  unfold Leads
  split <;> trivial

/-- A sequence leads where its second step leads from there where the first one does. -/
theorem bind (ha : Leads a s P E) (hf : ∀ x s', P x s' → Leads (f x) s' R E) :
    Leads (a >>= f) s R E := by
  unfold Leads at ha
  cases hrun : a.run s with
  | mk r s' =>
    rw [hrun] at ha
    cases r with
    | ok x =>
      have hafter := hf x s' ha
      rwa [Leads, run_bind_ok hrun]
    | error e => rwa [Leads, run_bind_error hrun]

/-- After a step that succeeds it is the rest that leads on. -/
theorem bind_ok {x : α} {s' : σ} (hrun : a.run s = (.ok x, s')) (h : Leads (f x) s' R E) :
    Leads (a >>= f) s R E := by
  unfold Leads
  rwa [run_bind_ok hrun]

theorem mono {E' : σ → Prop} (ha : Leads a s P E) (hQ : ∀ x s', P x s' → Q x s')
    (hE : ∀ s', E s' → E' s') : Leads a s Q E' := by
  unfold Leads at ha ⊢
  cases hrun : a.run s with
  | mk r s' =>
    rw [hrun] at ha
    cases r with
    | ok x => exact hQ x s' ha
    | error e => exact hE s' ha

theorem of_keeps {I : σ → Prop} {post : α → Prop} (ha : Keeps I a post) (hs : I s) :
    Leads a s (fun x s' => post x ∧ I s') I := by
  obtain ⟨hafter, hpost⟩ := ha s hs
  unfold Leads
  cases hrun : a.run s with
  | mk r s' =>
    rw [hrun] at hafter hpost
    cases r with
    | ok x => exact ⟨hpost x rfl, hafter⟩
    | error e => exact hafter

/-- What holds wherever the action answers and wherever it fails. -/
theorem after (ha : Leads a s Q E) (hQ : ∀ x s', Q x s' → E s') : E (a.run s).2 := by
  unfold Leads at ha
  cases hrun : a.run s with
  | mk r s' =>
    rw [hrun] at ha
    cases r with
    | ok x => exact hQ x s' ha
    | error e => exact ha

end Leads

end Action

end PageDb
