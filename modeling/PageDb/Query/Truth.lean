/-!
Three-valued truth.  A comparison with null is neither true nor false.
-/

namespace PageDb

/-- True, false, or not known. -/
inductive Truth where
  | yes
  | no
  | unknown
deriving DecidableEq, Repr

namespace Truth

/-- The truth value of a decided question. -/
def ofBool : Bool → Truth
  | true => .yes
  | false => .no

/-- Both: false as soon as one side is. -/
def and : Truth → Truth → Truth
  | .no, _ => .no
  | _, .no => .no
  | .yes, .yes => .yes
  | _, _ => .unknown

/-- At least one: true as soon as one side is. -/
def or : Truth → Truth → Truth
  | .yes, _ => .yes
  | _, .yes => .yes
  | .no, .no => .no
  | _, _ => .unknown

/-- Whether the value is true, and not merely possible. -/
def isTrue : Truth → Bool
  | .yes => true
  | _ => false

end Truth

end PageDb
