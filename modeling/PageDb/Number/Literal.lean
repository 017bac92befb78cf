import PageDb.Number.Binary

/-!
Number literals.

An integer literal is an optional sign and one or more ASCII digits.  A decimal literal is an
optional sign followed by `inf`, `infinity` or `nan` in any case, or by ASCII digits with at most
one point among or around them and an optional exponent.  Decimal literals keep their exact value
until they are rounded, once, to the width that is asked for.
-/

namespace PageDb

/-- The exact value of a decimal literal. -/
inductive Decimal where
  /-- The number `± digits * 10 ^ scale`. -/
  | finite (negative : Bool) (digits : Nat) (scale : Int)
  | infinite (negative : Bool)
  | nan (negative : Bool)
deriving DecidableEq, Repr

namespace Literal

/-- Whether the character is an ASCII digit. -/
def isDigit (c : Char) : Bool := decide ('0' ≤ c) && decide (c ≤ '9')

/-- The number a run of digits stands for, most significant digit first. -/
def digitsValue (cs : List Char) : Nat :=
  cs.foldl (fun acc c => acc * 10 + (c.toNat - 48)) 0

/-- The number of a text that is nothing but digits, at least one. -/
def natural? (cs : List Char) : Option Nat :=
  if cs.isEmpty || !cs.all isDigit then none else some (digitsValue cs)

/-- Splits off an optional sign; the answer says whether it is a minus sign. -/
def splitSign : List Char → Bool × List Char
  | '-' :: rest => (true, rest)
  | '+' :: rest => (false, rest)
  | cs => (false, cs)

/-- Reads an integer literal. -/
def integer? (cs : List Char) : Option Int :=
  let (negative, body) := splitSign cs
  (natural? body).map fun n => if negative then -(n : Int) else n

/-- Reads an integer literal that has to lie in the range `lo` to `hi`. -/
def bounded? (lo hi : Int) (cs : List Char) : Option Int :=
  (integer? cs).filter fun i => decide (lo ≤ i) && decide (i ≤ hi)

/-- Reads a non-negative integer literal below `bound`; a plus sign is allowed, a minus sign is not. -/
def naturalBelow? (bound : Nat) (cs : List Char) : Option Nat :=
  let body := match cs with
    | '+' :: rest => rest
    | cs => cs
  (natural? body).filter fun n => decide (n < bound)

/-- Reads what follows the digits: nothing, or an exponent. -/
def exponent? : List Char → Option Int
  | [] => some 0
  | c :: rest => if c = 'e' ∨ c = 'E' then integer? rest else none

/-- Reads the digits, point and exponent of an unsigned decimal literal. -/
def magnitude? (cs : List Char) : Option (Nat × Int) :=
  let whole := cs.takeWhile isDigit
  let rest := cs.dropWhile isDigit
  let (fraction, tail) := match rest with
    | '.' :: after => (after.takeWhile isDigit, after.dropWhile isDigit)
    | rest => ([], rest)
  if whole.isEmpty && fraction.isEmpty then none
  else (exponent? tail).map fun e => (digitsValue (whole ++ fraction), e - fraction.length)

/-- Reads a decimal literal. -/
def decimal? (cs : List Char) : Option Decimal :=
  let (negative, body) := splitSign cs
  let word := String.ofList (body.map Char.toLower)
  if word = "inf" ∨ word = "infinity" then some (.infinite negative)
  else if word = "nan" then some (.nan negative)
  else (magnitude? body).map fun (digits, scale) => .finite negative digits scale

end Literal

/--
The magnitude word nearest to `digits * 10 ^ scale`.  Decimals far outside the format's range are
settled by the place of their leading digit, without computing the power.
-/
def Format.nearestDecimal (f : Format) (digits : Nat) (scale : Int) : Nat :=
  let limit : Int := (Nat.pow 2 f.exponentBits : Nat)
  let leading := ((Nat.toDigits 10 digits).length : Int) + scale
  if digits = 0 then 0
  else if limit < leading then f.infinity
  else if leading < -limit then 0
  else if 0 ≤ scale then f.nearest (digits * Nat.pow 10 scale.toNat) 1
  else f.nearest digits (Nat.pow 10 (-scale).toNat)

/-- The word nearest to a decimal. -/
def Binary.ofDecimal (f : Format) : Decimal → Binary f
  | .finite negative digits scale => .ofMagnitude f negative (f.nearestDecimal digits scale)
  | .infinite negative => .ofMagnitude f negative f.infinity
  | .nan negative => .ofMagnitude f negative (f.infinity + f.quietBit)

end PageDb
