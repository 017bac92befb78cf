import PageDb.Error

/-!
One row of lookahead.

A query makes each row one step before it hands it out, so it knows whether another one will
follow.  An error met while making the next row is held back until the row before it is out.
-/

namespace PageDb

/-- What was made ahead of time. -/
structure Lookahead (ρ : Type) where
  /-- The row to hand out next. -/
  ready : Option ρ := none
  /-- True until a row has been asked for. -/
  first : Bool := true
  /-- An error that was met behind the row handed out last. -/
  held : Option Error := none
deriving DecidableEq

namespace Lookahead

variable {ρ σ : Type}

/-- Whether something may still come. -/
def hasNext (l : Lookahead ρ) : Bool := l.first || l.ready.isSome || l.held.isSome

/-- Changes what was made ahead. -/
def update (f : Lookahead ρ → Lookahead ρ) : Action (Lookahead ρ × σ) Unit :=
  modify fun (l, s) => (f l, s)

/-- Makes a row; the flag says whether it is the first one asked for. -/
def make (produce : Bool → Action σ (Option ρ)) :
    Action (Lookahead ρ × σ) (Result (Option ρ)) := do
  let first := (← get).1.first
  (Action.onPart Prod.snd (fun s whole => (whole.1, s)) (produce first)).attempt

/-- The next row. -/
def next (produce : Bool → Action σ (Option ρ)) : Action (Lookahead ρ × σ) (Option ρ) := do
  match (← get).1.held with
  | some e =>
    update fun l => { l with held := none }
    throw e
  | none =>
    if (← get).1.ready.isNone then
      let made ← make produce
      update fun l => { l with first := false }
      let row ← made
      update fun l => { l with ready := row }
    match (← get).1.ready with
    | none => pure none
    | some row =>
      update fun l => { l with ready := none }
      match ← make produce with
      | .ok following => update fun l => { l with ready := following }
      | .error e => update fun l => { l with held := some e }
      pure (some row)

end Lookahead

end PageDb
