import CircuitGraph.Diagnostic
import CircuitGraph.Graph.Reach

/-!
# The linear order

`Graph.linearize` puts the nodes of a graph into an order in which the source of every wire comes
before its target. Among the vertices that wait for no other one, the one with the least id is taken
next, so the order is the least one by ids. A cycle leaves vertices behind, which makes the graph
impossible to order; so does an id that two nodes share.
-/

namespace CircuitGraph

/-- Why a graph has no linear order. -/
inductive OrderError
  /-- Two nodes share an id. -/
  | duplicateId (id : String)
  /-- A cycle holds up the nodes with the given ids. -/
  | cycle (unresolved : List String)
deriving DecidableEq, Repr

namespace OrderError

/-- The text of the error. -/
def message : OrderError → String
  | duplicateId id => s!"node id `{id}` is not unique"
  | cycle unresolved =>
    let ids := ", ".intercalate unresolved
    s!"cycle prevents ordering of nodes: {ids}"

/-- The error as a diagnostic. -/
def diagnostic (e : OrderError) : Diagnostic :=
  match e with
  | duplicateId id => .atNode .duplicateId id e.message
  | cycle [] => .ofGraph .cycleDetected e.message
  | cycle (id :: _) => .atNode .cycleDetected id e.message

end OrderError

/-- The numbers of wires that arrive from vertices not yet placed, by position. -/
abbrev Degrees := Array Nat

namespace Degrees

/-- The degree at a position. -/
def degreeOf (degrees : Degrees) (position : Nat) : Nat := degrees.getD position 0

/-- One wire more that arrives at a position. -/
def raise (degrees : Degrees) (position : Nat) : Degrees := degrees.modify position (· + 1)

/-- One wire less that arrives at a position. -/
def lower (degrees : Degrees) (position : Nat) : Degrees := degrees.modify position (· - 1)

end Degrees

namespace Index

/-- The numbers of wires that arrive at each position. -/
def degrees (index : Index) : Degrees :=
  index.wires.foldl (fun ds w => ds.raise w.target.position)
    (Array.replicate index.vertices.length 0)

/-- The degrees after a vertex has been placed. -/
def release (index : Index) (v : Vertex) (degrees : Degrees) : Degrees :=
  (index.outgoing v.position).foldl (fun ds w => ds.lower w.target.position) degrees

end Index

/-- The vertex with the least id, the earlier one of two with the same id. -/
def leastById : List Vertex → Option Vertex
  | [] => none
  | v :: vs =>
    match leastById vs with
    | some w => if w.id < v.id then some w else some v
    | none => some v

/-- The least vertex is one of the vertices. -/
theorem mem_of_leastById {vs : List Vertex} {v : Vertex} (h : leastById vs = some v) : v ∈ vs := by
  induction vs generalizing v with
  | nil => cases h
  | cons w ws ih =>
    unfold leastById at h
    split at h <;> grind

/-- Places vertices as long as one of the waiting ones waits for no other, always the least one.
Gives those placed, in order, and those left behind. -/
def place (index : Index) (degrees : Degrees) (waiting : List Vertex) :
    List Vertex × List Vertex :=
  match _h : leastById (waiting.filter fun v => degrees.degreeOf v.position == 0) with
  | none => ([], waiting)
  | some v =>
    let (placed, left) := place index (index.release v degrees) (waiting.erase v)
    (v :: placed, left)
termination_by waiting.length
decreasing_by
  have hv := (List.mem_filter.1 (mem_of_leastById _h)).1
  have := List.length_erase_of_mem hv
  have := List.length_pos_of_mem hv
  omega

/-- Vertices of a graph in dependency order, with the index that resolves their wiring. -/
structure LinearOrder where
  /-- The index of the graph. -/
  index : Index
  /-- The vertices in order. -/
  vertices : List Vertex

/-- The linear order of an indexed graph. -/
def Index.linearize (index : Index) : Except OrderError LinearOrder :=
  match index.vertices.find? index.isShadowed with
  | some v => .error (.duplicateId v.id)
  | none =>
    match place index index.degrees index.owners with
    | (placed, []) => .ok ⟨index, placed⟩
    | (_, left) => .error (.cycle ((left.map Vertex.id).mergeSort fun a b => a ≤ b))

/-- The linear order of a graph. -/
def Graph.linearize (g : Graph) : Except OrderError LinearOrder := g.index.linearize

namespace LinearOrder

/-- The ids in order. -/
def ids (order : LinearOrder) : List String := order.vertices.map Vertex.id

/-- The positions in order. -/
def positions (order : LinearOrder) : List Nat := order.vertices.map Vertex.position

/-- The order without the vertices that feed no output. -/
def pruned (order : LinearOrder) : LinearOrder :=
  let useful := order.index.useful
  { order with vertices := order.vertices.filter fun v => useful.contains v.position }

/-- The vertices that feed no output, in order. -/
def unused (order : LinearOrder) : List Vertex :=
  let useful := order.index.useful
  order.vertices.filter fun v => !useful.contains v.position

end LinearOrder

end CircuitGraph
