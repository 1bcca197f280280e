import CircuitGraph.Diagnostic
import CircuitGraph.Graph.Index

/-!
# Ids, edges and ports

The checks that look at one place of the graph: ids that several nodes share, edges that are not
well formed, ports that do not have exactly one wire, and numbers wired to boolean outputs.
-/

namespace CircuitGraph.Validation

/-- The ids that occur for the second time, walking along the ids; `before` holds those walked over.
An id that occurs more often is listed once. -/
def repeatedIds (before : List String) : List String → List String
  | [] => []
  | id :: ids =>
    let rest := repeatedIds (id :: before) ids
    if before.count id = 1 then id :: rest else rest

/-- Every id that several nodes share, at its second occurrence. -/
def duplicateIds (index : Index) : List Diagnostic :=
  (repeatedIds [] (index.vertices.map Vertex.id)).map fun id =>
    .atNode .duplicateId id s!"node id `{id}` is declared more than once"

/-- The port names of a node as a message lists them. -/
def describePorts : PortSet → String
  | .unresolved => "in0, in1, ..."
  | ports => ", ".intercalate ports.names

/-- What is wrong with an edge that is not well formed. -/
def faultMessage (index : Index) (edge : Edge) : LinkFault → String
  | .missingSource => s!"edge `{edge.id}` references missing source node `{edge.source}`"
  | .missingTarget => s!"edge `{edge.id}` references missing target node `{edge.target}`"
  | .unknownSourcePort =>
    if (index.lookup? edge.source).any fun v => v.node.isOutput then
      s!"edge `{edge.id}` leaves output node `{edge.source}`, which has no output port"
    else
      s!"edge `{edge.id}` uses unknown source port `{edge.sourcePort}` on node `{edge.source}`"
  | .unknownTargetPort =>
    let ports := ((index.lookup? edge.target).map fun v => v.node.ports).getD .unresolved
    if ports.isEmpty then
      s!"edge `{edge.id}` targets input node `{edge.target}`, which accepts no incoming edges"
    else
      let expected := describePorts ports
      s!"edge `{edge.id}` targets unknown port `{edge.targetPort}` on node `{edge.target}` "
        ++ s!"(expected one of: {expected})"

/-- Every edge that is not well formed. -/
def danglingEdges (index : Index) : List Diagnostic :=
  index.links.filterMap fun link =>
    link.fault?.map fun fault =>
      .atEdge .danglingEdge link.edge.id (faultMessage index link.edge fault)

/-- What is wrong with a port that has the given number of wires. -/
def portProblem? (port : String) : Nat → Option String
  | 0 => some s!"port `{port}` is not wired"
  | 1 => none
  | many => some s!"port `{port}` has {many} incoming edges"

/-- A node some of whose declared ports do not have exactly one wire. -/
def arityOf? (index : Index) (v : Vertex) : Option Diagnostic :=
  if v.node.ports = .unresolved then
    none
  else
    let declared := v.node.ports.names
    let wired := (index.incoming v.position).map fun w => w.edge.targetPort
    let problems := declared.filterMap fun port => portProblem? port (wired.count port)
    if problems.isEmpty then
      none
    else
      let names := ", ".intercalate declared
      let found := "; ".intercalate problems
      some (.atNode .arityMismatch v.id
        (s!"{v.node.describe} node `{v.id}` expects {declared.length} incoming edge(s) on "
          ++ s!"[{names}], found {wired.length}: {found}"))

/-- Every node some of whose declared ports do not have exactly one wire. -/
def arityMismatches (index : Index) : List Diagnostic := index.owners.filterMap (arityOf? index)

/-- A wire that brings a number to a boolean output. -/
def typeMismatchOf? (w : Wire) : Option Diagnostic :=
  match w.target.node.kind with
  | .output .boolean _ =>
    if w.source.node.valueType? = some .number then
      some (.atEdge .typeMismatch w.edge.id
        (s!"boolean output `{w.target.id}` is wired from numeric {w.source.node.describe} "
          ++ s!"node `{w.source.id}`"))
    else
      none
  | _ => none

/-- Every wire that brings a number to a boolean output. -/
def typeMismatches (index : Index) : List Diagnostic := index.wires.filterMap typeMismatchOf?

end CircuitGraph.Validation
