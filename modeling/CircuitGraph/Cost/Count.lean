import CircuitGraph.Text.Word

/-!
# Clamped counts

A `Count` is a number of constraints of at most 64 bits. Sums and products that would be larger are
clamped to the largest count, so adding never makes a total smaller.
-/

namespace CircuitGraph

open CircuitGraph.Text

/-- A natural number of at most 64 bits. -/
structure Count where
  /-- The number. -/
  toNat : Nat
  /-- The number has 64 bits. -/
  le_max : toNat ≤ maxWord
deriving DecidableEq, Repr

namespace Count

/-- A number, or the largest count if the number is larger. -/
def clamp (n : Nat) : Count := ⟨min n maxWord, Nat.min_le_right _ _⟩

/-- A number of 64 bits as a count. -/
def ofNat? (n : Nat) : Option Count := if h : n ≤ maxWord then some ⟨n, h⟩ else none

instance : Add Count := ⟨fun a b => clamp (a.toNat + b.toNat)⟩

instance : Mul Count := ⟨fun a b => clamp (a.toNat * b.toNat)⟩

instance (n : Nat) : OfNat Count n := ⟨clamp n⟩

/-- Two counts are equal when their numbers are. -/
theorem ext {a b : Count} (h : a.toNat = b.toNat) : a = b := by
  cases a
  cases b
  simpa using h

/-- A number that fits is clamped to itself. -/
theorem toNat_clamp (n : Nat) : (clamp n).toNat = min n maxWord := rfl

/-- The sum of counts is the clamped sum of their numbers. -/
theorem toNat_add (a b : Count) : (a + b).toNat = min (a.toNat + b.toNat) maxWord := rfl

/-- The product of counts is the clamped product of their numbers. -/
theorem toNat_mul (a b : Count) : (a * b).toNat = min (a.toNat * b.toNat) maxWord := rfl

end Count

end CircuitGraph
