/-!
Binary floating-point numbers as words.

A `Format` fixes the widths of the fraction and exponent fields; a `Binary f` is one word of that
format, sign bit first.  All arithmetic is exact arithmetic on `Nat` and `Int`: a finite word reads
as `significand * 2 ^ exponent`, and `Format.nearest` rounds a ratio to the nearest word, ties to
the even one.  `Binary.key` is the total order of words: it puts negative words below positive
ones, `-0` below `0`, and NaNs beyond the infinities of their sign.
-/

namespace PageDb

/-- A binary interchange format, given by the widths of its two magnitude fields. -/
structure Format where
  fractionBits : Nat
  exponentBits : Nat
deriving DecidableEq, Repr

/-- One word of a format. -/
structure Binary (f : Format) where
  bits : BitVec (1 + f.exponentBits + f.fractionBits)
deriving DecidableEq

/-- What the magnitude of a word stands for. -/
inductive Magnitude where
  /-- The number `significand * 2 ^ exponent`. -/
  | finite (significand : Nat) (exponent : Int)
  | infinite
  /-- No number; `payload` is the fraction field. -/
  | nan (payload : Nat)
deriving DecidableEq, Repr

namespace Format

/-- Four bytes: 23 fraction bits, 8 exponent bits. -/
def single : Format := ⟨23, 8⟩

/-- Eight bytes: 52 fraction bits, 11 exponent bits. -/
def double : Format := ⟨52, 11⟩

/-- The number of words with the sign bit clear. -/
def magnitudes (f : Format) : Nat := Nat.pow 2 (f.exponentBits + f.fractionBits)

/-- The magnitude word of infinity; larger magnitude words are NaNs. -/
def infinity (f : Format) : Nat := (Nat.pow 2 f.exponentBits - 1) * Nat.pow 2 f.fractionBits

/-- The top fraction bit, set in every quiet NaN. -/
def quietBit (f : Format) : Nat := Nat.pow 2 (f.fractionBits - 1)

/-- The exponent of the smallest positive number. -/
def minExponent (f : Format) : Int :=
  2 - (Nat.pow 2 (f.exponentBits - 1) : Nat) - f.fractionBits

/-- Reads a magnitude word. -/
def magnitude (f : Format) (n : Nat) : Magnitude :=
  if n < f.infinity then
    let field := n / Nat.pow 2 f.fractionBits
    let fraction := n % Nat.pow 2 f.fractionBits
    if field = 0 then .finite fraction f.minExponent
    else .finite (Nat.pow 2 f.fractionBits + fraction) (f.minExponent + (field - 1 : Nat))
  else if n = f.infinity then .infinite
  else .nan (n - f.infinity)

/-- The quotient `num / den` rounded to the nearest integer, a half going to the even one. -/
def divideToEven (num den : Nat) : Nat :=
  let quotient := num / den
  let rest := num % den
  if den < 2 * rest ∨ (den = 2 * rest ∧ quotient % 2 = 1) then quotient + 1 else quotient

/-- The ratio `num / den` divided by `2 ^ e`, as a ratio. -/
def rescale (num den : Nat) (e : Int) : Nat × Nat :=
  if 0 ≤ e then (num, den * Nat.pow 2 e.toNat) else (num * Nat.pow 2 (-e).toNat, den)

/-- The exponent of the largest power of two that is at most `num / den`. -/
def floorLog (num den : Nat) : Int :=
  let guess : Int := (Nat.log2 num : Int) - Nat.log2 den
  let scaled := rescale num den guess
  if scaled.1 < scaled.2 then guess - 1 else guess

/--
The magnitude word nearest to `num / den`, ties to the even word, saturating at infinity.
A word counts units of the last place, so a significand that rounds up to the next power of two
carries into the exponent field by plain addition.
-/
def nearest (f : Format) (num den : Nat) : Nat :=
  if num = 0 then 0
  else
    let unit := max (floorLog num den - f.fractionBits) f.minExponent
    let scaled := rescale num den unit
    let significand := divideToEven scaled.1 scaled.2
    min f.infinity ((unit - f.minExponent).toNat * Nat.pow 2 f.fractionBits + significand)

end Format

namespace Binary

variable {f g : Format}

/-- The word with the given sign and magnitude. -/
def ofMagnitude (f : Format) (negative : Bool) (magnitude : Nat) : Binary f :=
  ⟨BitVec.ofNat _ ((if negative then f.magnitudes else 0) + magnitude)⟩

/-- The word as a natural number. -/
def toNat (x : Binary f) : Nat := x.bits.toNat

/-- Whether the sign bit is set. -/
def isNegative (x : Binary f) : Bool := decide (f.magnitudes ≤ x.toNat)

/-- The word without its sign bit. -/
def magnitudeWord (x : Binary f) : Nat := x.toNat % f.magnitudes

/-- What the word stands for, sign aside. -/
def magnitude (x : Binary f) : Magnitude := f.magnitude x.magnitudeWord

/-- Whether the word is a NaN. -/
def isNaN (x : Binary f) : Bool := decide (f.infinity < x.magnitudeWord)

/-- The place of the word in the total order of its format. -/
def key (x : Binary f) : Int :=
  if x.isNegative then -(x.magnitudeWord : Int) - 1 else x.magnitudeWord

/-- The number nearest to an integer. -/
def ofInt (f : Format) (i : Int) : Binary f :=
  ofMagnitude f (decide (i < 0)) (f.nearest i.natAbs 1)

/-- The number nearest to `± significand * 2 ^ exponent`. -/
def ofScaled (f : Format) (negative : Bool) (significand : Nat) (exponent : Int) : Binary f :=
  let ratio := Format.rescale significand 1 (-exponent)
  ofMagnitude f negative (f.nearest ratio.1 ratio.2)

/--
The word of another format that stands for the same number, rounded if it has to be.  A NaN keeps
its sign and the leading bits of its payload and becomes quiet.
-/
def convert (g : Format) (x : Binary f) : Binary g :=
  match x.magnitude with
  | .finite significand exponent => ofScaled g x.isNegative significand exponent
  | .infinite => ofMagnitude g x.isNegative g.infinity
  | .nan payload =>
    let aligned := payload * Nat.pow 2 g.fractionBits / Nat.pow 2 f.fractionBits
    ofMagnitude g x.isNegative (g.infinity + (aligned ||| g.quietBit))

/-- The integer part of the number, brought into the range `lo` to `hi`; zero for a NaN. -/
def truncate (x : Binary f) (lo hi : Int) : Int :=
  match x.magnitude with
  | .finite significand exponent =>
    let ratio := Format.rescale significand 1 (-exponent)
    let whole : Int := (ratio.1 / ratio.2 : Nat)
    max lo (min hi (if x.isNegative then -whole else whole))
  | .infinite => if x.isNegative then lo else hi
  | .nan _ => 0

end Binary

end PageDb
