/-!
# Binary numbers of 64 bits

A `Binary64` is a finite, nonnegative number `significand * 2 ^ exponent` of the double format: the
significand has at most 53 bits and the exponent lies between -1074 and 971. `ofRatio?` rounds an
exact ratio to the nearest such number, a tie going to the even significand, and refuses a ratio
that would round beyond the largest one. Products and quotients are rounded from their exact value.
-/

namespace CircuitGraph.Decimal

/-- An integer power as a ratio of natural numbers, one of which is 1. -/
def powerRatio (base : Nat) (e : Int) : Nat × Nat :=
  (Nat.pow base e.toNat, Nat.pow base (-e).toNat)

/-- The integer nearest to `num / den`, a tie going to the even one. -/
def roundHalfEven (num den : Nat) : Nat :=
  let quotient := num / den
  let remainder := num % den
  if den < 2 * remainder ∨ (2 * remainder = den ∧ quotient % 2 = 1) then quotient + 1 else quotient

/-- The number `significand * 2 ^ exponent`. -/
structure Binary64 where
  /-- The leading bits, at most 53 of them. -/
  significand : Nat
  /-- The power of two, at least -1074. -/
  exponent : Int
deriving DecidableEq, Repr

namespace Binary64

/-- The number zero. -/
def zero : Binary64 := ⟨0, -1074⟩

/-- The least significand with 53 bits. -/
def topBit : Nat := 4503599627370496

/-- The ratio `num / den` in units of `2 ^ e`, again as a ratio. -/
def inUnits (num den : Nat) (e : Int) : Nat × Nat :=
  let (p, q) := powerRatio 2 e
  (num * q, den * p)

/-- The exponent at which `num / den` has 53 bits before the point, raised to -1074 for a ratio too
small to have as many. -/
def exponentOf (num den : Nat) : Int :=
  let low : Int := (num.log2 : Int) - (den.log2 : Int) - 53
  let (n, d) := inUnits num den low
  max (-1074) (if n / d < 2 * topBit then low else low + 1)

/-- The number nearest to `num / den`, unless it is beyond the largest one. -/
def ofRatio? (num den : Nat) : Option Binary64 :=
  if num = 0 then
    some zero
  else
    let e := exponentOf num den
    let (n, d) := inUnits num den e
    let s := roundHalfEven n d
    -- Rounding up may give the next power of two, which has one bit more.
    let (s, e) := if s = 2 * topBit then (topBit, e + 1) else (s, e)
    if 971 < e then none else some ⟨s, e⟩

/-- The value as an exact ratio. -/
def toRatio (x : Binary64) : Nat × Nat :=
  let (p, q) := powerRatio 2 x.exponent
  (x.significand * p, q)

/-- The product, rounded once. -/
def mul? (x y : Binary64) : Option Binary64 :=
  let (a, b) := x.toRatio
  let (c, d) := y.toRatio
  ofRatio? (a * c) (b * d)

/-- The quotient, rounded once. -/
def div? (x y : Binary64) : Option Binary64 :=
  let (a, b) := x.toRatio
  let (c, d) := y.toRatio
  ofRatio? (a * d) (b * c)

end Binary64

example : Binary64.ofRatio? 1 10 = some ⟨7205759403792794, -56⟩ := by decide +kernel
example : Binary64.ofRatio? 9007199254740993 1 = some ⟨4503599627370496, 1⟩ := by decide +kernel

end CircuitGraph.Decimal
