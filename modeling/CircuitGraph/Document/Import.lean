import CircuitGraph.Document.Basic
import CircuitGraph.Graph.Port

/-!
# Importing documents

`Document.toGraph` turns a saved circuit into a graph. Nodes and edges keep their order. An edge
with a handle at its target goes to the port that the handle names; the other edges into the same
node take, in their order, the declared ports that no handle names, and the first declared port once
these have run out.
-/

namespace CircuitGraph

/-- Why a document cannot be imported. -/
inductive DocumentError
  /-- The canvas type of a node is unknown. -/
  | unknownNodeType (id type : String)
  /-- The operation of a node is unknown. -/
  | unknownOperation (id operation : String)
  /-- A field of a node has an unknown value. -/
  | unknownVariant (id field value : String)
  /-- A field of a node is missing. -/
  | missingField (id field : String)
deriving DecidableEq, Repr

/-- The text of the error. -/
def DocumentError.message : DocumentError → String
  | unknownNodeType id type => s!"node `{id}` has unknown type `{type}`"
  | unknownOperation id operation => s!"node `{id}` uses unknown operation `{operation}`"
  | unknownVariant id field value => s!"node `{id}` has unknown {field} `{value}`"
  | missingField id field => s!"node `{id}` is missing `{field}`"

namespace DocumentNode

/-- A field that the node has to have. -/
def required (n : DocumentNode) (field : String) (value : Option String) :
    Except DocumentError String :=
  match value with
  | some s => .ok s
  | none => .error (.missingField n.id field)

/-- The operator of a name; equality has two names. -/
def operatorOfName? (name : String) : Option Operator :=
  if name = "equals" then some .eq else Operator.ofName? name

/-- The kind of an input; it is private unless it says otherwise. -/
def inputKind (n : DocumentNode) : Except DocumentError NodeKind := do
  let label ← n.required "label" n.data.label
  match n.data.fieldType.getD "private" with
  | "private" => return .input .secret label
  | "public" => return .input .exposed label
  | other => throw (.unknownVariant n.id "fieldType" other)

/-- The kind of an operation. -/
def operationKind (n : DocumentNode) : Except DocumentError NodeKind := do
  let name ← n.required "operation" n.data.operation
  match operatorOfName? name with
  | some operator => return .operation operator
  | none => throw (.unknownOperation n.id name)

/-- The kind of a gadget. -/
def gadgetKind (n : DocumentNode) : Except DocumentError NodeKind := do
  let name ← n.required "operation" n.data.operation
  match Gadget.ofName? name with
  | some gadget => return .gadget gadget n.data.params
  | none => throw (.unknownOperation n.id name)

/-- The kind of an output; it is a truth value unless it says otherwise. -/
def outputKind (n : DocumentNode) : Except DocumentError NodeKind := do
  let label ← n.required "label" n.data.label
  match n.data.outputType.getD "boolean" with
  | "boolean" => return .output .boolean label
  | "number" => return .output .number label
  | other => throw (.unknownVariant n.id "outputType" other)

/-- The node of the graph. -/
def toNode (n : DocumentNode) : Except DocumentError Node := do
  let kind ← match n.type with
    | "input" => n.inputKind
    | "operation" => n.operationKind
    | "advanced" => n.gadgetKind
    | "output" => n.outputKind
    | other => throw (.unknownNodeType n.id other)
  return ⟨n.id, kind⟩

end DocumentNode

/-- The ports that the first node with the given id declares. -/
def declaredPorts (nodes : List Node) (id : String) : List String :=
  match nodes.find? fun node => node.id == id with
  | some node => node.ports.names
  | none => []

/-- The name of a handle, without the word in front that editors put there. -/
def handleName (handle : String) : String :=
  let front := "input-".toList
  if front.isPrefixOf handle.toList then String.ofList (handle.toList.drop front.length)
  else handle

/-- The port that a handle at the target names. A name that is declared is taken as it is; else a
single letter stands for the declared port at its place in the alphabet; anything else is taken as
it is. -/
def portOfHandle (declared : List String) (handle : String) : String :=
  let name := handleName handle
  if declared.contains name then
    name
  else
    match name.toList with
    | [c] => if 'a' ≤ c ∧ c ≤ 'z' then declared.getD (c.toNat - 'a'.toNat) name else name
    | _ => name

/-- The port at which a value leaves, given the handle at the source. -/
def sourcePortOfHandle (handle : Option String) : String :=
  match handle with
  | none => outputPort
  | some "output" => outputPort
  | some other => other

/-- The port for an edge without a handle: the first declared one that is not claimed, else the
first declared one. -/
def freePort (declared claimed : List String) : String :=
  match declared.find? fun port => !claimed.contains port with
  | some port => port
  | none => declared.headD "in"

/-- The ports, by target, that handles claim. -/
def claimedByHandles (nodes : List Node) (edges : List DocumentEdge) : List (String × String) :=
  edges.filterMap fun e =>
    e.targetHandle.map fun handle => (e.target, portOfHandle (declaredPorts nodes e.target) handle)

/-- The claimed ports of one target. -/
def claimedAt (claimed : List (String × String)) (target : String) : List String :=
  claimed.filterMap fun (id, port) => if id = target then some port else none

/-- The port at which an edge arrives, given the ports that are claimed before it. -/
def targetPortOf (nodes : List Node) (claimed : List (String × String)) (e : DocumentEdge) :
    String :=
  let declared := declaredPorts nodes e.target
  match e.targetHandle with
  | some handle => portOfHandle declared handle
  | none => freePort declared (claimedAt claimed e.target)

/-- The edges of the graph, from the one at a position on. Each claims the port it takes. -/
def importEdges (nodes : List Node) (claimed : List (String × String)) (position : Nat) :
    List DocumentEdge → List Edge
  | [] => []
  | e :: es =>
    let port := targetPortOf nodes claimed e
    let edge : Edge :=
      { id := if e.id = "" then s!"e{position}" else e.id
        source := e.source
        sourcePort := sourcePortOfHandle e.sourceHandle
        target := e.target
        targetPort := port }
    edge :: importEdges nodes ((e.target, port) :: claimed) (position + 1) es

/-- The graph of a document, or why there is none. -/
def Document.toGraph (d : Document) : Except DocumentError Graph := do
  let nodes ← d.nodes.mapM DocumentNode.toNode
  return ⟨nodes, importEdges nodes (claimedByHandles nodes d.edges) 0 d.edges⟩

end CircuitGraph
