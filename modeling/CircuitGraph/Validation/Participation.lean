import CircuitGraph.Diagnostic
import CircuitGraph.Graph.Reach

/-!
# Taking part in the circuit

A node takes part when something arrives at it, it feeds an output, and an input feeds it. A circuit
has an input, an output, and an output that some input feeds.
-/

namespace CircuitGraph.Validation

/-- Why a node takes no part, if so: the first of the three conditions that fails. -/
def orphanMessage? (index : Index) (fed useful : List Nat) (v : Vertex) : Option String :=
  if !v.node.isInput && (index.incoming v.position).isEmpty then
    some s!"{v.node.describe} node `{v.id}` has no incoming edges"
  else if !useful.contains v.position then
    some s!"{v.node.describe} node `{v.id}` is not connected to any output"
  else if !fed.contains v.position then
    some s!"{v.node.describe} node `{v.id}` is not fed by any input"
  else
    none

/-- Every node that takes no part. -/
def orphans (index : Index) : List Diagnostic :=
  let fed := index.fed
  let useful := index.useful
  index.owners.filterMap fun v =>
    (orphanMessage? index fed useful v).map (.atNode .orphanNode v.id)

/-- Why the graph computes nothing, if so. -/
def unreachableMessage? (index : Index) : Option String :=
  if index.inputs.isEmpty then
    some "graph has no input nodes"
  else if index.outputs.isEmpty then
    some "graph has no output nodes"
  else
    let fed := index.fed
    if index.outputs.any fun v => fed.contains v.position then none
    else some "no output is reachable from any input"

/-- The report that the graph computes nothing. -/
def unreachableOutput (index : Index) : List Diagnostic :=
  ((unreachableMessage? index).map (.ofGraph .noOutputReachable)).toList

end CircuitGraph.Validation
