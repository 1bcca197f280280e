import CircuitGraph.Cost.Count
import CircuitGraph.Json.Record

/-!
# The cost table

How many constraints each kind of node is reckoned with. The numbers are a policy that can be
changed, not a measurement.
-/

namespace CircuitGraph

open CircuitGraph.Json

/-- The constraints reckoned for the kinds of nodes. -/
structure CostTable where
  /-- An input. -/
  input : Count := 0
  /-- An output. -/
  output : Count := 1
  /-- A sum or a difference. -/
  linear : Count := 1
  /-- A product. -/
  multiply : Count := 1
  /-- A quotient. -/
  divide : Count := 2
  /-- A comparator, without its bits. -/
  comparatorBase : Count := 1
  /-- Each bit of a comparator. -/
  comparatorPerBit : Count := 1
  /-- The conjunction in a range check. -/
  rangeCheckAnd : Count := 1
  /-- Each value that is hashed. -/
  hashPerInput : Count := 240
  /-- A selection, without its comparison. -/
  conditional : Count := 3
  /-- Each level of a Merkle proof. -/
  merklePerLevel : Count := 245
  /-- A remainder, without its comparison and its bits. -/
  modulo : Count := 2
deriving DecidableEq, Repr

namespace CostTable

/-- The names of the fields in order of declaration. -/
def fieldNames : List String :=
  ["input", "output", "linear", "multiply", "divide", "comparator_base", "comparator_per_bit",
   "range_check_and", "hash_per_input", "conditional", "merkle_per_level", "modulo"]

/-- A count that a value writes. -/
def countOfJson? (v : Value) : Option Count := v.word? >>= Count.ofNat?

/-- The table that a value writes; absent fields have their default. -/
def ofJson? (v : Value) : Option CostTable := do
  let r ← v.record? fieldNames
  let base : CostTable := {}
  let field := fun name default => r.withDefault? name default countOfJson?
  return {
    input := ← field "input" base.input
    output := ← field "output" base.output
    linear := ← field "linear" base.linear
    multiply := ← field "multiply" base.multiply
    divide := ← field "divide" base.divide
    comparatorBase := ← field "comparator_base" base.comparatorBase
    comparatorPerBit := ← field "comparator_per_bit" base.comparatorPerBit
    rangeCheckAnd := ← field "range_check_and" base.rangeCheckAnd
    hashPerInput := ← field "hash_per_input" base.hashPerInput
    conditional := ← field "conditional" base.conditional
    merklePerLevel := ← field "merkle_per_level" base.merklePerLevel
    modulo := ← field "modulo" base.modulo }

end CostTable

end CircuitGraph
