import CircuitGraph.Graph.Operator
import CircuitGraph.Graph.Params

/-!
# Circuit graphs

A graph is a snapshot of an editor: nodes and edges in the order in which they were made. Nothing is
refused when a graph is built; ids may repeat and edges may lead nowhere. An edge leads from the
output of one node to a named port of another.
-/

namespace CircuitGraph

/-- Whether the value of an input is revealed to the verifier. -/
inductive Visibility
  /-- Known to the prover alone. -/
  | secret
  /-- Part of the public statement. -/
  | exposed
deriving DecidableEq, Repr

/-- What a node is. -/
inductive NodeKind
  /-- A value supplied from outside. -/
  | input (visibility : Visibility) (label : String)
  /-- An operation on two values. -/
  | operation (operator : Operator)
  /-- A building block with parameters. -/
  | gadget (gadget : Gadget) (params : Params)
  /-- A result of the circuit, announced as being of the given type. -/
  | output (type : ValueType) (label : String)
deriving DecidableEq

/-- A node under its id. -/
structure Node where
  /-- The id by which edges name the node. -/
  id : String
  /-- What the node is. -/
  kind : NodeKind
deriving DecidableEq

namespace Node

/-- The label of an input or an output. -/
def label? (node : Node) : Option String :=
  match node.kind with
  | .input _ label | .output _ label => some label
  | _ => none

/-- Whether the node supplies a value from outside. -/
def isInput (node : Node) : Bool :=
  match node.kind with
  | .input .. => true
  | _ => false

/-- Whether the node is a result of the circuit. -/
def isOutput (node : Node) : Bool :=
  match node.kind with
  | .output .. => true
  | _ => false

/-- Whether edges may leave the node; an output produces nothing. -/
def hasOutputPort (node : Node) : Bool := !node.isOutput

/-- The words that name a node's kind in messages. -/
def describe (node : Node) : String :=
  match node.kind with
  | .input .secret _ => "private input"
  | .input .exposed _ => "public input"
  | .operation operator => operator.name
  | .gadget gadget _ => gadget.name
  | .output .boolean _ => "boolean output"
  | .output .number _ => "number output"

/-- The type of the value at the node's output, if it has one. -/
def valueType? (node : Node) : Option ValueType :=
  match node.kind with
  | .input .. => some .number
  | .operation operator => some operator.valueType
  | .gadget gadget _ => some gadget.valueType
  | .output .. => none

end Node

/-- The port at which every value leaves its node. -/
def outputPort : String := "out"

/-- A wire from a node's output to a port of a node. -/
structure Edge where
  /-- The id of the edge. -/
  id : String
  /-- The id of the node the value comes from. -/
  source : String
  /-- The port at which the value leaves. -/
  sourcePort : String := outputPort
  /-- The id of the node the value goes to. -/
  target : String
  /-- The port at which the value arrives. -/
  targetPort : String
deriving DecidableEq, Repr

/-- Nodes and edges in the order in which they were made. -/
structure Graph where
  /-- The nodes. -/
  nodes : List Node
  /-- The edges. -/
  edges : List Edge
deriving DecidableEq

namespace Graph

/-- The graph without nodes and edges. -/
def empty : Graph := ⟨[], []⟩

/-- Appends a node. -/
def addNode (g : Graph) (node : Node) : Graph := { g with nodes := g.nodes ++ [node] }

/-- Appends an edge. -/
def addEdge (g : Graph) (edge : Edge) : Graph := { g with edges := g.edges ++ [edge] }

/-- The id given to a wire that is drawn between two nodes. -/
def wireId (source target port : String) : String := s!"e{source}-{target}:{port}"

/-- The edge that wires a node's output to a port. -/
def wire (source target port : String) : Edge :=
  { id := wireId source target port, source, target, targetPort := port }

/-- Wires a node's output to a port of a node. -/
def connect (g : Graph) (source target port : String) : Graph := g.addEdge (wire source target port)

/-- The first node with the given id. -/
def node? (g : Graph) (id : String) : Option Node := g.nodes.find? fun node => node.id == id

/-- The first edge with the given id. -/
def edge? (g : Graph) (id : String) : Option Edge := g.edges.find? fun edge => edge.id == id

/-- Removes the first edge with the given id. -/
def removeEdge (g : Graph) (id : String) : Graph :=
  { g with edges := g.edges.eraseP fun edge => edge.id == id }

/-- Removes every node with the given id and keeps the edges. -/
def dropNode (g : Graph) (id : String) : Graph :=
  { g with nodes := g.nodes.filter fun node => node.id != id }

end Graph

end CircuitGraph
