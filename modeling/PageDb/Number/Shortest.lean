import PageDb.Number.Binary

/-!
The shortest decimal text of a binary number.

The reals that round to a finite word form an interval around it.  Among the decimal grids
`10 ^ t`, the coarsest one with a point in that interval gives the fewest digits, and the point
nearest to the number gives the digits; of two points at the same distance the upper one is taken.
The text is always positional: no exponent, and no fraction when the number is whole.
-/

namespace PageDb

namespace Binary

variable {f : Format}

/-- The reals that round to one word, as numerators over a common denominator. -/
structure Interval where
  low : Nat
  value : Nat
  high : Nat
  denominator : Nat
  /-- Whether the two ends round to the word as well. -/
  closed : Bool
deriving DecidableEq, Repr

/--
The interval of a positive number, in quarters of its last place.  Below a power of two the
neighbouring word is only half as far away.
-/
def interval (f : Format) (significand : Nat) (exponent : Int) : Interval :=
  let quarter := exponent - 2
  let unit := Nat.pow 2 quarter.toNat
  let narrow := decide (significand = Nat.pow 2 f.fractionBits ∧ f.minExponent < exponent)
  { low := (4 * significand - (if narrow then 1 else 2)) * unit
    value := 4 * significand * unit
    high := (4 * significand + 2) * unit
    denominator := Nat.pow 2 (-quarter).toNat
    closed := decide (significand % 2 = 0) }

/-- Whether `point / denominator` lies in the interval. -/
def Interval.holds (i : Interval) (point : Nat) : Bool :=
  if i.closed then decide (i.low ≤ point ∧ point ≤ i.high)
  else decide (i.low < point ∧ point < i.high)

/-- The interval with all its numerators multiplied. -/
def Interval.scale (i : Interval) (factor : Nat) : Interval :=
  { i with low := i.low * factor, value := i.value * factor, high := i.high * factor }

/-- The multiple of `step` in the interval that is nearest to its value, if there is one. -/
def Interval.nearestMultiple? (i : Interval) (step : Nat) : Option Nat :=
  let below := i.value / step
  let above := below + 1
  let lower := decide (0 < below) && i.holds (below * step)
  let upper := i.holds (above * step)
  match lower, upper with
  | true, true => if i.value - below * step < above * step - i.value then some below else some above
  | true, false => some below
  | false, true => some above
  | false, false => none

/-- The nearest point of the interval on the grid `10 ^ t`, in units of that grid. -/
def Interval.onGrid? (i : Interval) (t : Int) : Option Nat :=
  if 0 ≤ t then i.nearestMultiple? (Nat.pow 10 t.toNat * i.denominator)
  else (i.scale (Nat.pow 10 (-t).toNat)).nearestMultiple? i.denominator

/-- The first grid at or below `10 ^ t` with a point in the interval. -/
def Interval.coarsest (i : Interval) : Nat → Int → Nat × Int
  | 0, t => (0, t)
  | fuel + 1, t =>
    match i.onGrid? t with
    | some digits => (digits, t)
    | none => i.coarsest fuel (t - 1)

/-- A power of ten that is not below the interval's value. -/
def Interval.ceiling (i : Interval) : Int :=
  if i.denominator ≤ i.value then ((Nat.toDigits 10 (i.value / i.denominator)).length : Nat)
  else 1 - ((Nat.toDigits 10 (i.denominator / i.value)).length : Nat)

/-- The shortest decimal `digits * 10 ^ scale` that rounds to a positive number of the format. -/
def shortest (f : Format) (significand : Nat) (exponent : Int) : Nat × Int :=
  let i := interval f significand exponent
  i.coarsest (f.fractionBits + 8) i.ceiling

end Binary

/-- The positional text of `digits * 10 ^ scale`. -/
def positional (digits : Nat) (scale : Int) : String :=
  let text := Nat.toDigits 10 digits
  if 0 ≤ scale then String.ofList (text ++ List.replicate scale.toNat '0')
  else
    let places := (-scale).toNat
    if places < text.length then
      String.ofList
        (text.take (text.length - places) ++ '.' :: text.drop (text.length - places))
    else String.ofList ('0' :: '.' :: (List.replicate (places - text.length) '0' ++ text))

namespace Binary

variable {f : Format}

/-- The text of a number: the fewest digits that read back as the same word. -/
def toText (x : Binary f) : String :=
  let sign := if x.isNegative then "-" else ""
  match x.magnitude with
  | .finite significand exponent =>
    if significand = 0 then sign ++ "0"
    else
      let decimal := shortest f significand exponent
      sign ++ positional decimal.1 decimal.2
  | .infinite => sign ++ "inf"
  | .nan _ => "NaN"

end Binary

end PageDb
