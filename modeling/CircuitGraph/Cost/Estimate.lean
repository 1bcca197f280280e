import CircuitGraph.Gadget.Setting
import CircuitGraph.Order.Linear

/-!
# Estimates

The cost of a circuit is the clamped sum of the costs of its nodes, taken from the cost table, and a
coarse proving time follows from it. A gadget whose parameters cannot be used has no cost, and then
nothing is known about the circuit; nor is anything told about a graph that cannot be compiled.
-/

namespace CircuitGraph

namespace Config

/-- The constraints of a comparison. -/
def comparatorCost (config : Config) : Count :=
  config.costs.comparatorPerBit * Count.clamp config.comparatorBits + config.costs.comparatorBase

/-- The constraints of a decomposition into as many bits as the comparators have. -/
def bitsCost (config : Config) : Count :=
  config.costs.comparatorPerBit * Count.clamp config.comparatorBits

/-- The constraints of an operation. -/
def operatorCost (config : Config) : Operator → Count
  | .add | .subtract => config.costs.linear
  | .multiply => config.costs.multiply
  | .divide => config.costs.divide
  | .gt | .lt | .eq => config.comparatorCost

/-- The constraints of a gadget. -/
def settingCost (config : Config) : Setting → Count
  | .rangeCheck .. => config.comparatorCost * 2 + config.costs.rangeCheckAnd
  | .hash inputs => config.costs.hashPerInput * Count.clamp inputs
  | .conditional _ => config.costs.conditional + config.comparatorCost
  | .merkleProof depth => config.costs.merklePerLevel * Count.clamp depth + config.comparatorCost
  | .modulo _ => config.costs.modulo + config.comparatorCost + config.bitsCost

/-- The constraints of a node, unless its parameters cannot be used. -/
def nodeCost? (config : Config) (node : Node) : Option Count :=
  match node.kind with
  | .input .. => some config.costs.input
  | .operation operator => some (config.operatorCost operator)
  | .gadget gadget params =>
    match gadget.resolve config params with
    | .ok setting => some (config.settingCost setting)
    | .error _ => none
  | .output .. => some config.costs.output

/-- The constraints of a list of nodes, unless one of them has no cost. -/
def totalCost? (config : Config) (nodes : List Node) : Option Count :=
  nodes.foldlM (fun total node => (config.nodeCost? node).map (total + ·)) 0

end Config

/-- The proving times with the number of constraints below which they hold, in ascending order. -/
def timeBuckets : List (Nat × String) :=
  [(1000, "< 1s"), (10000, "~1-2s"), (50000, "~2-5s"), (200000, "~5-15s"), (1000000, "~15-60s")]

/-- The proving time beyond all buckets. -/
def slowestTime : String := "> 1min"

/-- The proving time for a number of constraints. -/
def timeBucket (constraints : Nat) : String :=
  match timeBuckets.find? fun (bound, _) => constraints < bound with
  | some (_, label) => label
  | none => slowestTime

/-- What is expected of a circuit. -/
structure Estimate where
  /-- The number of constraints. -/
  constraints : Count
  /-- The proving time. -/
  time : String
deriving DecidableEq, Repr

namespace Estimate

/-- The estimate when nothing is known. -/
def unknown : Estimate := ⟨0, "unknown"⟩

/-- The estimate for a number of constraints. -/
def ofConstraints (constraints : Count) : Estimate :=
  ⟨constraints, timeBucket constraints.toNat⟩

/-- The estimate for a list of nodes. -/
def ofNodes (config : Config) (nodes : List Node) : Estimate :=
  match config.totalCost? nodes with
  | some total => ofConstraints total
  | none => unknown

/-- The estimate for a graph in linear order, if no diagnostic is fatal. -/
def ofOrder (config : Config) (order : LinearOrder) (ds : List Diagnostic) : Estimate :=
  if hasFatal ds then unknown else ofNodes config (order.vertices.map Vertex.node)

end Estimate

end CircuitGraph
