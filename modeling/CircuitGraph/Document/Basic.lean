import CircuitGraph.Graph.Encoding

/-!
# Editor documents

The file in which a visual editor saves a circuit. Its nodes have a canvas type and free-form data,
and its edges may name the handles they are attached to. Positions and whatever else an editor keeps
are skipped when a document is read and are not written again.
-/

namespace CircuitGraph

open CircuitGraph.Json

/-- The data of a document's node. -/
structure NodeData where
  /-- The label. -/
  label : Option String := none
  /-- Whether an input is private or public. -/
  fieldType : Option String := none
  /-- The name of an operation or a gadget. -/
  operation : Option String := none
  /-- The parameters of a gadget. -/
  params : Params := .empty
  /-- Whether an output is a truth value or a number. -/
  outputType : Option String := none
deriving DecidableEq

/-- A node of a document. -/
structure DocumentNode where
  /-- The id. -/
  id : String
  /-- The canvas type. -/
  type : String
  /-- The data. -/
  data : NodeData
deriving DecidableEq

/-- An edge of a document. -/
structure DocumentEdge where
  /-- The id; empty when the document gives none. -/
  id : String
  /-- The id of the source. -/
  source : String
  /-- The id of the target. -/
  target : String
  /-- The handle at the source. -/
  sourceHandle : Option String
  /-- The handle at the target. -/
  targetHandle : Option String
deriving DecidableEq

/-- A saved circuit. -/
structure Document where
  /-- The name. -/
  name : Option String
  /-- The nodes. -/
  nodes : List DocumentNode
  /-- The edges. -/
  edges : List DocumentEdge
  /-- When the document was saved. -/
  createdAt : Option String
deriving DecidableEq

namespace NodeData

/-- The data that a value writes. -/
def ofJson? (v : Value) : Option NodeData := do
  let r ← v.record? ["label", "fieldType", "operation", "params", "outputType"]
  return {
    label := ← r.optional? "label" Value.string?
    fieldType := ← r.optional? "fieldType" Value.string?
    operation := ← r.optional? "operation" Value.string?
    params := ← r.withDefault? "params" .empty Params.ofJson?
    outputType := ← r.optional? "outputType" Value.string? }

/-- The data as an object, without what is absent. -/
def toJson (d : NodeData) : Value :=
  let params := if d.params.isEmpty then [] else [("params", d.params.toJson)]
  .ofMembers
    (Value.optionalMember "label" d.label ++ Value.optionalMember "fieldType" d.fieldType
      ++ Value.optionalMember "operation" d.operation ++ params
      ++ Value.optionalMember "outputType" d.outputType)

end NodeData

namespace DocumentNode

/-- The node that a value writes. -/
def ofJson? (v : Value) : Option DocumentNode := do
  let r ← v.record? ["id", "type", "data"]
  return {
    id := ← r.required? "id" Value.string?
    type := ← r.required? "type" Value.string?
    data := ← r.withDefault? "data" {} NodeData.ofJson? }

/-- The node as an object. -/
def toJson (n : DocumentNode) : Value :=
  .ofMembers [("id", .ofString n.id), ("type", .ofString n.type), ("data", n.data.toJson)]

end DocumentNode

namespace DocumentEdge

/-- The edge that a value writes. -/
def ofJson? (v : Value) : Option DocumentEdge := do
  let r ← v.record? ["id", "source", "target", "sourceHandle", "targetHandle"]
  return {
    id := ← r.withDefault? "id" "" Value.string?
    source := ← r.required? "source" Value.string?
    target := ← r.required? "target" Value.string?
    sourceHandle := ← r.optional? "sourceHandle" Value.string?
    targetHandle := ← r.optional? "targetHandle" Value.string? }

/-- The edge as an object, without what is absent. -/
def toJson (e : DocumentEdge) : Value :=
  .ofMembers
    ([("id", .ofString e.id), ("source", .ofString e.source), ("target", .ofString e.target)]
      ++ Value.optionalMember "sourceHandle" e.sourceHandle
      ++ Value.optionalMember "targetHandle" e.targetHandle)

end DocumentEdge

namespace Document

/-- The document that a value writes. -/
def ofJson? (v : Value) : Option Document := do
  let r ← v.record? ["name", "nodes", "edges", "createdAt"]
  return {
    name := ← r.optional? "name" Value.string?
    nodes := ← r.required? "nodes" (Value.list? DocumentNode.ofJson?)
    edges := ← r.withDefault? "edges" [] (Value.list? DocumentEdge.ofJson?)
    createdAt := ← r.optional? "createdAt" Value.string? }

/-- The document as an object, without what is absent. -/
def toJson (d : Document) : Value :=
  .ofMembers
    (Value.optionalMember "name" d.name
      ++ [("nodes", .array (d.nodes.map DocumentNode.toJson)),
          ("edges", .array (d.edges.map DocumentEdge.toJson))]
      ++ Value.optionalMember "createdAt" d.createdAt)

/-- The document that a text writes. -/
def parse? (s : String) : Option Document := Value.parse s >>= ofJson?

end Document

end CircuitGraph
