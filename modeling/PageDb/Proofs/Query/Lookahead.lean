import PageDb.Proofs.Action
import PageDb.Proofs.Table.Walk
import PageDb.Query.Lookahead

/-!
One row ahead.

A lookahead has its source make a row before the row is wanted, and keeps what comes of it.  This only
delays things: what the calls hand out is what the source makes, in the same order, errors included.
-/

namespace PageDb

/-- What an action answers when it is called again and again. -/
def Action.answers {σ α : Type} (action : Action σ α) : σ → Nat → Result α
  | s, 0 => (action.run s).1
  | s, n + 1 => answers action (action.run s).2 n

namespace Lookahead

variable {ρ σ : Type} (produce : Bool → Action σ (Option ρ)) (b : Bool) (s : σ)

theorem make_run (l : Lookahead ρ) :
    (make produce).run (l, s) = (.ok ((produce l.first).run s).1, (l, ((produce l.first).run s).2)) :=
  rfl

theorem run_update (f : Lookahead ρ → Lookahead ρ) (l : Lookahead ρ) :
    (update f).run (l, s) = (.ok (), (f l, s)) := rfl

/-- An error that was held back comes out. -/
theorem next_of_held (ready : Option ρ) (e : Error) :
    (next produce).run (⟨ready, b, some e⟩, s) = (.error e, (⟨ready, b, none⟩, s)) := rfl

/-- A row that is ready comes out, and the next one is made. -/
theorem next_of_ready (row : ρ) :
    (next produce).run (⟨some row, b, none⟩, s) = (.ok (some row),
      (match ((produce b).run s).1 with
        | .ok following => ⟨following, b, none⟩
        | .error e => ⟨none, b, some e⟩,
      ((produce b).run s).2)) := by
  unfold next
  rw [Action.run_bind_ok (Action.run_get _)]
  simp only
  rw [Action.run_bind_ok (Action.run_get _)]
  simp only [Option.isNone_some, Bool.false_eq_true, if_false]
  rw [Action.run_bind_ok (Action.run_get _)]
  simp only
  rw [Action.run_bind_ok (run_update _ _ _), Action.run_bind_ok (make_run produce s _)]
  simp only
  cases ((produce b).run s).1 with
  | ok following => rfl
  | error e => rfl

/-- When nothing is ready, a row is made first. -/
theorem next_of_none :
    (next produce).run (⟨none, b, none⟩, s) =
      match ((produce b).run s).1 with
      | .ok none => (.ok none, (⟨none, false, none⟩, ((produce b).run s).2))
      | .ok (some row) => (next produce).run (⟨some row, false, none⟩, ((produce b).run s).2)
      | .error e => (.error e, (⟨none, false, none⟩, ((produce b).run s).2)) := by
  conv => lhs; unfold next
  rw [Action.run_bind_ok (Action.run_get _)]
  simp only
  rw [Action.run_bind_ok (Action.run_get _)]
  simp only [Option.isNone_none, if_true]
  rw [Action.run_bind_ok (make_run produce s _), Action.run_bind_ok (run_update _ _ _)]
  rcases ((produce b).run s).1 with e | _ | row
  · rfl
  · rfl
  · rw [Action.run_bind_ok (Action.run_lift _ _), Action.run_bind_ok (run_update _ _ _)]
    rfl

/-! ## What is due -/

/-- `P` lists what a source has yet to make, given whether the next call is the first one: every call
makes the first item and leaves the others, and a call is never the first one again. -/
structure Supplies (P : Bool → List (Result ρ) → σ → Prop) : Prop where
  answers {b items s} : P b items s → ((produce b).run s).1 = Moving.answer items.head?
  later {b c items s} : P b items s → (c = true → b = true) → P c items.tail ((produce b).run s).2

/-- What is still to be handed out.  The first item may be ready, or be an error that is held back. -/
inductive Due (P : Bool → List (Result ρ) → σ → Prop) : List (Result ρ) → Lookahead ρ × σ → Prop
  | idle {b items s} : P b items s → Due P items (⟨none, b, none⟩, s)
  | ready {b items s row} : P b items s → Due P (.ok row :: items) (⟨some row, b, none⟩, s)
  | held {b items s e} : P b items s → Due P (.error e :: items) (⟨none, b, some e⟩, s)

section Due

variable {produce b s} {P : Bool → List (Result ρ) → σ → Prop} {items : List (Result ρ)}
  {now : Lookahead ρ × σ}

/-- One call hands out the first item and leaves the others. -/
def HandsOut (P : Bool → List (Result ρ) → σ → Prop) (items : List (Result ρ))
    (given : Result (Option ρ) × (Lookahead ρ × σ)) : Prop :=
  given.1 = Moving.answer items.head? ∧ Due P items.tail given.2

/-- A row that is ready is handed out, and what follows it is made. -/
theorem Supplies.next_of_ready (h : Supplies produce P) (row : ρ) (hP : P b items s) :
    HandsOut P (.ok row :: items) ((next produce).run (⟨some row, b, none⟩, s)) := by
  have hanswer := h.answers hP
  have hlater := h.later hP id
  rw [Lookahead.next_of_ready, hanswer]
  refine ⟨rfl, ?_⟩
  cases items with
  | nil => exact .idle hlater
  | cons item rest =>
    cases item with
    | error e => exact .held hlater
    | ok following => exact .ready hlater

/-- When nothing is ready, the first item is made first. -/
theorem Supplies.next_of_none (h : Supplies produce P)
    (hanswer : ((produce b).run s).1 = Moving.answer items.head?)
    (hlater : P false items.tail ((produce b).run s).2) :
    HandsOut P items ((next produce).run (⟨none, b, none⟩, s)) := by
  rw [Lookahead.next_of_none, hanswer]
  cases items with
  | nil => exact ⟨rfl, .idle hlater⟩
  | cons item rest =>
    cases item with
    | error e => exact ⟨rfl, .idle hlater⟩
    | ok row => exact h.next_of_ready row hlater

/-- Every call hands out the first item that is due. -/
theorem Supplies.next_run (h : Supplies produce P) (hdue : Due P items now) :
    HandsOut P items ((next produce).run now) := by
  cases hdue with
  | idle hP => exact h.next_of_none (h.answers hP) (h.later hP nofun)
  | ready hP => exact h.next_of_ready _ hP
  | held hP =>
    rw [next_of_held]
    exact ⟨rfl, .idle hP⟩

/-- Calls hand out the items that are due, one after the other, and then nothing. -/
theorem Supplies.answers_next (h : Supplies produce P) (hdue : Due P items now) (n : Nat) :
    (next produce).answers now n = Moving.answer items[n]? := by
  induction n generalizing items now with
  | zero =>
    rw [Action.answers, (h.next_run hdue).1, List.head?_eq_getElem?]
  | succ n ih =>
    rw [Action.answers, ih (h.next_run hdue).2, List.getElem?_tail]

end Due

/-- What a source makes when it is called again and again; only the first call is told that it is the
first one. -/
def made : (first : Bool) → σ → Nat → Result (Option ρ)
  | first, s, 0 => ((produce first).run s).1
  | first, s, n + 1 => made false ((produce first).run s).2 n

/-- Later calls make what is left. -/
theorem supplies_made : Supplies produce fun b items s =>
    b = false ∧ ∀ n, made produce false s n = Moving.answer items[n]? where
  answers := by
    rintro _ items s ⟨rfl, hmade⟩
    rw [List.head?_eq_getElem?]
    exact hmade 0
  later := by
    rintro _ c items s ⟨rfl, hmade⟩ hc
    refine ⟨Bool.eq_false_iff.2 fun htrue => Bool.noConfusion (hc htrue), fun n => ?_⟩
    rw [List.getElem?_tail]
    exact hmade (n + 1)

/-- A lookahead over a source that makes some rows and errors, and then nothing for ever, hands out
these rows and errors in this order, and then nothing for ever. -/
theorem answers_of_made (items : List (Result ρ))
    (h : ∀ n, made produce true s n = Moving.answer items[n]?) (n : Nat) :
    (next produce).answers ({}, s) n = Moving.answer items[n]? := by
  have hfirst : HandsOut _ items ((next produce).run ({}, s)) :=
    (supplies_made produce).next_of_none (by rw [List.head?_eq_getElem?]; exact h 0)
      ⟨rfl, fun n => by rw [List.getElem?_tail]; exact h (n + 1)⟩
  cases n with
  | zero => rw [Action.answers, hfirst.1, List.head?_eq_getElem?]
  | succ n =>
    rw [Action.answers, (supplies_made produce).answers_next hfirst.2, List.getElem?_tail]

/-- A source that makes what a list says. -/
def scripted (_ : Bool) : Action (List (Result ρ)) (Option ρ) :=
  ExceptT.mk fun script => (Moving.answer script.head?, script.tail)

theorem made_scripted (script : List (Result ρ)) (n : Nat) :
    made scripted b script n = Moving.answer script[n]? := by
  induction n generalizing b script with
  | zero => rw [← List.head?_eq_getElem?]; rfl
  | succ n ih => rw [← List.getElem?_tail, ← ih false script.tail]; rfl

/-- An error at the start, a row with two errors after it, and another row at the end. -/
def twoErrors : List (Result Nat) :=
  [.error .io, .ok 1, .error (.columnNotFound "x"), .error .io, .ok 2]

/-- Every error comes out in its place, and no row is lost. -/
theorem answers_of_made_twoErrors :
    (∀ n, made scripted true twoErrors n = Moving.answer twoErrors[n]?) ∧
      (List.range 7).map ((next scripted).answers ({}, twoErrors)) =
        [.error .io, .ok (some 1), .error (.columnNotFound "x"), .error .io, .ok (some 2), .ok none,
          .ok none] := by
  refine ⟨made_scripted true twoErrors, ?_⟩
  have hanswers := funext (answers_of_made scripted twoErrors twoErrors (made_scripted true twoErrors))
  rw [hanswers]
  rfl

end Lookahead

end PageDb
