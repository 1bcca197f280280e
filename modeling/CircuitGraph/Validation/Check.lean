import CircuitGraph.Gadget.Setting
import CircuitGraph.Validation.Cycle
import CircuitGraph.Validation.Participation
import CircuitGraph.Validation.Wiring

/-!
# Validation

`validate` runs every check over the whole graph, in a fixed order. No check stops another, so one
pass reports every problem. The graph is not changed.
-/

namespace CircuitGraph

namespace Validation

/-- A gadget whose parameters cannot be used. -/
def parameterOf? (config : Config) (v : Vertex) : Option Diagnostic :=
  match v.node.kind with
  | .gadget gadget params =>
    match gadget.resolve config params with
    | .ok _ => none
    | .error error =>
      let reason := error.message
      some (.atNode .missingParameter v.id s!"{gadget.name} node `{v.id}`: {reason}")
  | _ => none

/-- Every gadget whose parameters cannot be used. -/
def parameters (config : Config) (index : Index) : List Diagnostic :=
  index.owners.filterMap (parameterOf? config)

end Validation

/-- Every problem of an indexed graph, in reporting order. -/
def Index.validate (config : Config) (index : Index) : List Diagnostic :=
  Validation.duplicateIds index
    ++ Validation.danglingEdges index
    ++ Validation.cyclesDetected index
    ++ Validation.orphans index
    ++ Validation.arityMismatches index
    ++ Validation.parameters config index
    ++ Validation.unreachableOutput index
    ++ Validation.typeMismatches index

/-- Every problem of a graph, in reporting order. -/
def Graph.validate (config : Config) (g : Graph) : List Diagnostic := g.index.validate config

end CircuitGraph
