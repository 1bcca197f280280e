/-!
# Numbers of 64 bits

Parameters, costs and constraint counts are unsigned numbers of 64 bits. Here they are natural
numbers that do not exceed `maxWord`; `readWord?` reads one from its decimal text and refuses a
number that does not fit.
-/

namespace CircuitGraph.Text

/-- The largest number of 64 bits, `2^64 - 1`. -/
def maxWord : Nat := 18446744073709551615

/-- The value of an ASCII digit. -/
def digitValue (c : Char) : Nat := c.toNat - '0'.toNat

/-- The number written by decimal digits, the most significant first. -/
def ofDigits (digits : List Nat) : Nat := digits.foldl (fun n d => 10 * n + d) 0

/-- The number of 64 bits that a nonempty run of ASCII digits writes; leading zeros are allowed. -/
def wordOfDigits? (cs : List Char) : Option Nat :=
  if cs ≠ [] ∧ cs.all Char.isDigit then
    let n := ofDigits (cs.map digitValue)
    if n ≤ maxWord then some n else none
  else
    none

/-- The number of 64 bits that a text writes: ASCII digits, after at most one plus sign. -/
def readWord? (s : String) : Option Nat :=
  match s.toList with
  | '+' :: cs => wordOfDigits? cs
  | cs => wordOfDigits? cs

/-- A number read from digits has 64 bits. -/
theorem wordOfDigits?_le {cs : List Char} {n : Nat} (h : wordOfDigits? cs = some n) :
    n ≤ maxWord := by
  unfold wordOfDigits? at h
  grind

/-- A number read from a text has 64 bits. -/
theorem readWord?_le {s : String} {n : Nat} (h : readWord? s = some n) : n ≤ maxWord := by
  unfold readWord? at h
  split at h <;> exact wordOfDigits?_le h

end CircuitGraph.Text
