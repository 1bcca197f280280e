import CircuitGraph.Text.Word
import CircuitGraph.Decimal.Shortest

/-!
# Numerals

A `Numeral` is a JSON number as it is written: sign, digits, fraction and exponent. Nothing is lost
on reading it, so each use decides what the numeral means. `word?` accepts integers of 64 bits.
`text?` keeps an integer of 64 bits as its decimal digits and turns every other numeral into the
shortest text of the double that it denotes.

A numeral denotes a double in two roundings. The leading digits that fit 64 bits make an integer,
which is rounded; the power of ten that is left, also rounded, then multiplies or divides it. Powers
beyond `10 ^ 308` are divided out in steps of `10 ^ 308`. A numeral that reaches beyond the largest
double denotes nothing.
-/

namespace CircuitGraph.Json

open CircuitGraph.Text CircuitGraph.Decimal

/-- A number as it is written. -/
structure Numeral where
  /-- Whether it begins with a minus sign. -/
  negative : Bool
  /-- The digits before the point. -/
  whole : List Nat
  /-- The digits after the point; empty when there is no point. -/
  fraction : List Nat
  /-- The exponent, if one is written. -/
  exponent : Option Int
deriving DecidableEq, Repr

namespace Numeral

/-- The numeral of a natural number. -/
def ofNat (n : Nat) : Numeral := ⟨false, (Nat.toDigits 10 n).map digitValue, [], none⟩

/-- Whether neither a point nor an exponent is written. -/
def isInteger (n : Numeral) : Bool := n.fraction.isEmpty && n.exponent.isNone

/-- The unsigned integer of 64 bits that a numeral without sign, point and exponent writes. -/
def word? (n : Numeral) : Option Nat :=
  let value := ofDigits n.whole
  if n.isInteger && !n.negative && value ≤ maxWord then some value else none

/-- Appends digits to a number while the result fits 64 bits; gives it with the digits left over. -/
def absorb (n : Nat) : List Nat → Nat × List Nat
  | [] => (n, [])
  | d :: ds => if 10 * n + d ≤ maxWord then absorb (10 * n + d) ds else (n, d :: ds)

/-- The integer made of the leading digits and the power of ten that is left. -/
def decimal (n : Numeral) : Nat × Int :=
  let (leading, dropped) := absorb 0 n.whole
  let (leading, unread) := absorb leading n.fraction
  let places := n.fraction.length - unread.length
  (leading, (dropped.length : Int) - (places : Int) + n.exponent.getD 0)

/-- A double times a power of ten, unless it is beyond the largest double. -/
def scale? (x : Binary64) (power : Int) : Option Binary64 :=
  if power.natAbs ≤ 308 then do
    let factor ← Binary64.ofRatio? (Nat.pow 10 power.natAbs) 1
    if 0 ≤ power then x.mul? factor else x.div? factor
  else if x.significand = 0 then
    some x
  else if 0 ≤ power then
    none
  else do
    let factor ← Binary64.ofRatio? (Nat.pow 10 308) 1
    let x ← x.div? factor
    scale? x (power + 308)
termination_by power.natAbs

/-- The size of the double that a numeral denotes. -/
def magnitude? (n : Numeral) : Option Binary64 := do
  let (leading, power) := n.decimal
  scale? (← Binary64.ofRatio? leading 1) power

/-- The largest size of a negative integer of 64 bits. -/
def minWordSize : Nat := 9223372036854775808

/-- The text of a number: the digits of an integer of 64 bits, else the shortest text of the double.
Zero with a minus sign counts as a double and keeps the sign. -/
def text? (n : Numeral) : Option String :=
  let value := ofDigits n.whole
  let limit := if n.negative then minWordSize else maxWord
  let sign := if n.negative then "-" else ""
  if n.isInteger && value ≤ limit && !(n.negative && value == 0) then
    some (sign ++ toString value)
  else
    n.magnitude?.map fun x => sign ++ x.text

end Numeral

end CircuitGraph.Json
