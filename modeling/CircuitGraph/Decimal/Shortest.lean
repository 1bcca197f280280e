import CircuitGraph.Decimal.Binary64

/-!
# Shortest decimal digits

A decimal reads back as a binary number when it lies in the interval of reals that round to that
number: half a step to each side, the ends included when the significand is even. `shortest` takes
the coarsest decimal grid that meets this interval and on it the point nearest to the number, the
upper one of two equally near. `positional` writes the digits without an exponent.
-/

namespace CircuitGraph.Decimal

/-- The decimal `coefficient * 10 ^ exponent`. -/
structure Scientific where
  /-- The digits as one number. -/
  coefficient : Nat
  /-- The power of ten. -/
  exponent : Int
deriving DecidableEq, Repr

/-- The interval of reals that round to a binary number, over a common denominator. -/
structure Interval where
  /-- The lower end. -/
  low : Nat
  /-- The number itself. -/
  middle : Nat
  /-- The upper end. -/
  high : Nat
  /-- The denominator of all three. -/
  den : Nat
  /-- Whether the ends belong to it. -/
  closed : Bool

/-- The reals that round to a positive number. Below a power of two the step is half as wide. -/
def Binary64.interval (x : Binary64) : Interval :=
  let s := x.significand
  let (unit, den) := powerRatio 2 (x.exponent - 2)
  let below := if s = topBit ∧ -1074 < x.exponent then 1 else 2
  ⟨(4 * s - below) * unit, 4 * s * unit, (4 * s + 2) * unit, den, s % 2 == 0⟩

namespace Interval

/-- Whether the decimal `c * 10 ^ k` lies in the interval. -/
def contains (i : Interval) (c : Nat) (k : Int) : Bool :=
  let (p, q) := powerRatio 10 k
  let point := c * p * i.den
  if i.closed then i.low * q ≤ point && point ≤ i.high * q
  else i.low * q < point && point < i.high * q

/-- The point of the grid of `10 ^ k` in the interval that is nearest to its middle, if any. The
candidates are the two neighbours of the middle on that grid. -/
def onGrid? (i : Interval) (k : Int) : Option Nat :=
  let (p, q) := powerRatio 10 k
  let num := i.middle * q
  let den := i.den * p
  let lower := num / den
  let upper := lower + 1
  match i.contains lower k, i.contains upper k with
  | true, true => some (if 2 * (num % den) < den then lower else upper)
  | true, false => some lower
  | false, true => some upper
  | false, false => none

/-- The first hit on the grids of `10 ^ k`, `10 ^ (k - 1)` and so on, `fuel + 1` of them. -/
def firstHit (i : Interval) : (fuel : Nat) → (k : Int) → Scientific
  | 0, k => ⟨(i.onGrid? k).getD 0, k⟩
  | fuel + 1, k =>
    match i.onGrid? k with
    | some c => ⟨c, k⟩
    | none => i.firstHit fuel (k - 1)

end Interval

/-- The power of ten of the leading digit of `num / den`, a positive ratio. -/
def leadingPlace (num den : Nat) : Int :=
  if den ≤ num then
    ((Nat.toDigits 10 (num / den)).length : Int) - 1
  else
    -((Nat.toDigits 10 ((den - 1) / num)).length : Int)

/-- The shortest decimal that reads back as a positive number; 17 digits always do. -/
def Binary64.shortest (x : Binary64) : Scientific :=
  let i := x.interval
  i.firstHit 16 (leadingPlace i.middle i.den)

/-- A decimal with all its digits around a point and no exponent; digits that are zero at the end
of a fraction are not written. -/
def Scientific.positional (d : Scientific) : String :=
  let digits := Nat.toDigits 10 d.coefficient
  if 0 ≤ d.exponent then
    String.ofList (digits ++ List.replicate d.exponent.toNat '0')
  else
    let places := (-d.exponent).toNat
    let padded := List.replicate (places + 1 - digits.length) '0' ++ digits
    let whole := padded.take (padded.length - places)
    let fraction := ((padded.drop (padded.length - places)).reverse.dropWhile (· == '0')).reverse
    String.ofList (if fraction.isEmpty then whole else whole ++ '.' :: fraction)

/-- The shortest positional text of a number. -/
def Binary64.text (x : Binary64) : String :=
  if x.significand = 0 then "0" else x.shortest.positional

example : (Binary64.text <$> Binary64.ofRatio? 1 10) = some "0.1" := by decide +kernel
example : (Binary64.text <$> Binary64.ofRatio? 2 3) = some "0.6666666666666666" := by decide +kernel

end CircuitGraph.Decimal
