import CircuitGraph.Graph.Port

/-!
# The index of a graph

An index looks up the ends of every edge once. When several nodes share an id, the first of them
owns the id and the others are shadowed: no edge ever reaches a shadowed node. An edge is well
formed when both its ends exist, it leaves at a source's output, and it arrives at a port of its
target; otherwise the first of these conditions that fails is its fault. Only well-formed edges
become wires.
-/

namespace CircuitGraph

/-- A node together with its position in the graph. -/
structure Vertex where
  /-- The position among the nodes of the graph. -/
  position : Nat
  /-- The node. -/
  node : Node
deriving DecidableEq

namespace Vertex

/-- The id of the node. -/
def id (v : Vertex) : String := v.node.id

end Vertex

/-- Why an edge carries no value. -/
inductive LinkFault
  /-- No node has the id of the source. -/
  | missingSource
  /-- No node has the id of the target. -/
  | missingTarget
  /-- The source has no output of that name. -/
  | unknownSourcePort
  /-- The target has no port of that name. -/
  | unknownTargetPort
deriving DecidableEq, Repr

/-- An edge whose ends have been looked up. -/
structure Link where
  /-- The position among the edges of the graph. -/
  position : Nat
  /-- The edge. -/
  edge : Edge
  /-- The source and the target, or why there is no connection. -/
  ends : Except LinkFault (Vertex × Vertex)

/-- A well-formed edge with its two ends. -/
structure Wire where
  /-- The position among the edges of the graph. -/
  position : Nat
  /-- The edge. -/
  edge : Edge
  /-- Where the value comes from. -/
  source : Vertex
  /-- Where the value goes to. -/
  target : Vertex
deriving DecidableEq

/-- The fault of a link, if it has one. -/
def Link.fault? (link : Link) : Option LinkFault :=
  match link.ends with
  | .ok _ => none
  | .error fault => some fault

/-- The wire of a link without fault. -/
def Link.wire? (link : Link) : Option Wire :=
  match link.ends with
  | .ok (source, target) => some ⟨link.position, link.edge, source, target⟩
  | .error _ => none

namespace Graph

/-- The nodes with their positions. -/
def vertices (g : Graph) : List Vertex := g.nodes.zipIdx.map fun (node, i) => ⟨i, node⟩

end Graph

/-- The vertex that owns an id: the first one that has it. -/
def owner? (vertices : List Vertex) (id : String) : Option Vertex :=
  vertices.find? fun v => v.id == id

/-- The ends of an edge, or the first condition that fails. -/
def linkEnds (vertices : List Vertex) (edge : Edge) : Except LinkFault (Vertex × Vertex) :=
  match owner? vertices edge.source with
  | none => .error .missingSource
  | some source =>
    match owner? vertices edge.target with
    | none => .error .missingTarget
    | some target =>
      if !source.node.hasOutputPort || edge.sourcePort != outputPort then
        .error .unknownSourcePort
      else if !target.node.ports.contains edge.targetPort then
        .error .unknownTargetPort
      else
        .ok (source, target)

/-- A graph with the ends of its edges looked up. -/
structure Index where
  /-- The nodes, in graph order. -/
  vertices : List Vertex
  /-- The edges, in graph order. -/
  links : List Link
  /-- The well-formed edges, in graph order. -/
  wires : List Wire

/-- Looks up the ends of every edge. -/
def Graph.index (g : Graph) : Index :=
  let vertices := g.vertices
  let links := g.edges.zipIdx.map fun (edge, i) => ⟨i, edge, linkEnds vertices edge⟩
  { vertices, links, wires := links.filterMap Link.wire? }

namespace Index

/-- The vertex that owns an id. -/
def lookup? (index : Index) (id : String) : Option Vertex := owner? index.vertices id

/-- Whether an earlier vertex owns the id of this one. -/
def isShadowed (index : Index) (v : Vertex) : Bool :=
  match index.lookup? v.id with
  | some first => first.position != v.position
  | none => true

/-- Whether two nodes share an id. -/
def hasShadowed (index : Index) : Bool := index.vertices.any index.isShadowed

/-- The vertices that own their id, in graph order. -/
def owners (index : Index) : List Vertex := index.vertices.filter fun v => !index.isShadowed v

/-- The wires that arrive at the vertex at a position, in graph order. -/
def incoming (index : Index) (position : Nat) : List Wire :=
  index.wires.filter fun w => w.target.position == position

/-- The wires that leave the vertex at a position, in graph order. -/
def outgoing (index : Index) (position : Nat) : List Wire :=
  index.wires.filter fun w => w.source.position == position

/-- The inputs that own their id. -/
def inputs (index : Index) : List Vertex := index.owners.filter fun v => v.node.isInput

/-- The outputs that own their id. -/
def outputs (index : Index) : List Vertex := index.owners.filter fun v => v.node.isOutput

end Index

end CircuitGraph
