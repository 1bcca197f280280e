import CircuitGraph.Graph.Basic
import CircuitGraph.Json.Printer
import CircuitGraph.Json.Reader
import CircuitGraph.Json.Record

/-!
# Graphs as JSON

`Graph.parse?` reads a graph and `Graph.pretty` writes one. A node is an object with an `id`, a
`kind` and the fields of that kind. Every member of a node is taken over in full even when it is
unknown, so a member that cannot be, such as a number beyond the doubles, makes the node unreadable.
Unknown members of graphs and edges are skipped.

A kind may also be written as its number. An operator may also be written as an object whose only
member has the operator's name. A parameter may be a string, a number or a truth value, and is kept
as text.
-/

namespace CircuitGraph

open CircuitGraph.Json

/-- The deepest nesting of arrays and objects in a value that is taken over in full. -/
def maxNesting : Nat := 127

/-- The nesting left for the members of a node, inside the graph, its list of nodes and the node. -/
def nodeNesting : Nat := maxNesting - 3

/-- The kinds of nodes as they are written. -/
inductive KindTag
  /-- An input that is known to the prover alone. -/
  | privateInput
  /-- An input that is part of the public statement. -/
  | publicInput
  /-- An operation on two values. -/
  | operation
  /-- A gadget. -/
  | advancedOperation
  /-- An output announced as a truth value. -/
  | booleanOutput
  /-- An output announced as a number. -/
  | numberOutput
deriving DecidableEq, Repr

namespace KindTag

/-- Every kind, in the order of its number. -/
def all : List KindTag :=
  [privateInput, publicInput, operation, advancedOperation, booleanOutput, numberOutput]

/-- The name of a kind. -/
def name : KindTag → String
  | privateInput => "PrivateInput"
  | publicInput => "PublicInput"
  | operation => "Operation"
  | advancedOperation => "AdvancedOperation"
  | booleanOutput => "BooleanOutput"
  | numberOutput => "NumberOutput"

/-- The fields that a node of this kind has besides its id and its kind. -/
def fields : KindTag → List String
  | operation => ["operator"]
  | advancedOperation => ["operator", "params"]
  | _ => ["label"]

/-- The kind that a value writes, by name or by number. -/
def ofJson? : Value → Option KindTag
  | .string content => content >>= fun name => all.find? fun tag => tag.name == name
  | .number n => n.word? >>= fun i => all[i]?
  | _ => none

end KindTag

/-- The kind under which a node is written. -/
def NodeKind.tag : NodeKind → KindTag
  | .input .secret _ => .privateInput
  | .input .exposed _ => .publicInput
  | .operation _ => .operation
  | .gadget .. => .advancedOperation
  | .output .boolean _ => .booleanOutput
  | .output .number _ => .numberOutput

namespace Params

/-- The text of a parameter. -/
def textOfJson? : Value → Option String
  | .string content => content
  | .number n => n.text?
  | .bool true => some "true"
  | .bool false => some "false"
  | _ => none

/-- A parameter under its name. -/
def entryOfJson? : Literal × Value → Option (String × String)
  | (name, value) => do return (← name, ← textOfJson? value)

/-- The parameters that a value writes; `null` stands for none. -/
def ofJson? : Value → Option Params
  | .null => some empty
  | .object members => (members.mapM entryOfJson?).map ofList
  | _ => none

/-- The parameters as an object, in order of their names. -/
def toJson (p : Params) : Value :=
  .ofMembers (p.entries.map fun (name, text) => (name, .ofString text))

end Params

/-- The name in a choice among named alternatives: a string, or an object with this name alone and
an empty value. -/
def choiceOfJson? : Value → Option String
  | .string content => content
  | .object [(name, .null)] => name
  | .object [(name, .object [])] => name
  | _ => none

/-- A kind from its tag and the fields that are present. -/
def NodeKind.ofRecord? (tag : KindTag) (r : Record) : Option NodeKind :=
  match tag with
  | .privateInput => (r.required? "label" Value.string?).map (.input .secret)
  | .publicInput => (r.required? "label" Value.string?).map (.input .exposed)
  | .operation => (r.required? "operator" choiceOfJson? >>= Operator.ofName?).map .operation
  | .advancedOperation => do
    let gadget ← r.required? "operator" choiceOfJson? >>= Gadget.ofName?
    let params ← r.withDefault? "params" Params.empty Params.ofJson?
    return .gadget gadget params
  | .booleanOutput => (r.required? "label" Value.string?).map (.output .boolean)
  | .numberOutput => (r.required? "label" Value.string?).map (.output .number)

/-- The node that a value writes. -/
def Node.ofJson? : Value → Option Node
  | .object members =>
    if Value.membersAreReadable nodeNesting members then do
      let head ← fieldsOfMembers? members ["id", "kind"]
      let id ← head.required? "id" Value.string?
      let tag ← head.required? "kind" KindTag.ofJson?
      let fields ← fieldsOfMembers? members tag.fields
      return ⟨id, ← NodeKind.ofRecord? tag fields⟩
    else
      none
  | _ => none

/-- The fields of a kind besides its tag. -/
def NodeKind.members : NodeKind → List (String × Value)
  | .input _ label => [("label", .ofString label)]
  | .operation op => [("operator", .ofString op.name)]
  | .gadget g params => [("operator", .ofString g.name), ("params", params.toJson)]
  | .output _ label => [("label", .ofString label)]

/-- The node as an object. -/
def Node.toJson (node : Node) : Value :=
  .ofMembers
    (("id", .ofString node.id) :: ("kind", .ofString node.kind.tag.name) :: node.kind.members)

/-- The edge that a value writes. -/
def Edge.ofJson? (v : Value) : Option Edge := do
  let r ← v.record? ["id", "source", "sourcePort", "target", "targetPort"]
  return {
    id := ← r.required? "id" Value.string?
    source := ← r.required? "source" Value.string?
    sourcePort := ← r.withDefault? "sourcePort" outputPort Value.string?
    target := ← r.required? "target" Value.string?
    targetPort := ← r.required? "targetPort" Value.string? }

/-- The edge as an object. -/
def Edge.toJson (e : Edge) : Value :=
  .ofMembers
    [("id", .ofString e.id), ("source", .ofString e.source), ("sourcePort", .ofString e.sourcePort),
     ("target", .ofString e.target), ("targetPort", .ofString e.targetPort)]

namespace Graph

/-- The graph that a value writes. -/
def ofJson? (v : Value) : Option Graph := do
  let r ← v.record? ["nodes", "edges"]
  return {
    nodes := ← r.withDefault? "nodes" [] (Value.list? Node.ofJson?)
    edges := ← r.withDefault? "edges" [] (Value.list? Edge.ofJson?) }

/-- The graph as an object. -/
def toJson (g : Graph) : Value :=
  .ofMembers
    [("nodes", .array (g.nodes.map Node.toJson)), ("edges", .array (g.edges.map Edge.toJson))]

/-- The graph that a text writes. -/
def parse? (s : String) : Option Graph := Value.parse s >>= ofJson?

/-- The text of a graph, over several lines. -/
def pretty (g : Graph) : String := g.toJson.pretty

end Graph

end CircuitGraph
