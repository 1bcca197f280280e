import CircuitGraph.Config.Basic
import CircuitGraph.Json.Reader

/-!
# Configurations as JSON

`Config.parse?` reads a configuration. Every field has a default, so a text only names the settings
that it changes. A configuration that has been read may still be out of bounds; `Config.load` checks
it as well.
-/

namespace CircuitGraph

open CircuitGraph.Json

/-- Why no configuration is obtained from a text. -/
inductive ConfigLoadError
  /-- The text writes no configuration. -/
  | malformed
  /-- A setting is out of bounds. -/
  | invalid (error : ConfigError)
deriving DecidableEq, Repr

/-- The text of the error. -/
def ConfigLoadError.message : ConfigLoadError → String
  | malformed => "invalid configuration json: not a configuration"
  | invalid error => error.message

/-- The largest number of 32 bits. -/
def maxHalfWord : Nat := 4294967295

namespace Config

/-- The number of 32 bits that a value writes. -/
def halfWordOfJson? (v : Value) : Option Nat := do
  let n ← v.word?
  if n ≤ maxHalfWord then some n else none

/-- The names of the fields in order of declaration. -/
def fieldNames : List String :=
  ["template_name", "circom_version", "include_root", "comparator_bits", "max_hash_inputs",
   "max_merkle_depth", "costs"]

/-- The configuration that a value writes; absent fields have their default. -/
def ofJson? (v : Value) : Option Config := do
  let r ← v.record? fieldNames
  let base : Config := {}
  return {
    templateName := ← r.withDefault? "template_name" base.templateName Value.string?
    circomVersion := ← r.withDefault? "circom_version" base.circomVersion Value.string?
    includeRoot := ← r.withDefault? "include_root" base.includeRoot Value.string?
    comparatorBits := ← r.withDefault? "comparator_bits" base.comparatorBits halfWordOfJson?
    maxHashInputs := ← r.withDefault? "max_hash_inputs" base.maxHashInputs Value.word?
    maxMerkleDepth := ← r.withDefault? "max_merkle_depth" base.maxMerkleDepth halfWordOfJson?
    costs := ← r.withDefault? "costs" base.costs CostTable.ofJson? }

/-- The configuration that a text writes, whether or not its settings are within bounds. -/
def parse? (s : String) : Option Config := Value.parse s >>= ofJson?

/-- The configuration that a text writes, checked. -/
def load (s : String) : Except ConfigLoadError Config :=
  match parse? s with
  | none => .error .malformed
  | some config =>
    match config.check with
    | .ok () => .ok config
    | .error error => .error (.invalid error)

end Config

end CircuitGraph
