import CircuitGraph.Graph.Index

/-!
# Reachability

`closure next unmarked pending` marks everything that can be reached from the pending positions by
following `next`, and lists it in the order in which it is met. Each position leaves the unmarked
ones when it is marked, so the search ends on graphs with cycles too.
-/

namespace CircuitGraph

/-- The unmarked positions that can be reached from the pending ones. -/
def closure (next : Nat → List Nat) (unmarked pending : List Nat) : List Nat :=
  match pending with
  | [] => []
  | v :: pending =>
    if _h : v ∈ unmarked then
      v :: closure next (unmarked.erase v) (next v ++ pending)
    else
      closure next unmarked pending
termination_by (unmarked.length, pending.length)
decreasing_by
  · have := List.length_erase_of_mem _h
    have := List.length_pos_of_mem _h
    exact Prod.Lex.left _ _ (by omega)
  · exact Prod.Lex.right _ (by simp)

namespace Index

/-- The positions of all vertices. -/
def positions (index : Index) : List Nat := index.vertices.map Vertex.position

/-- The positions to which a path of wires leads from one of the starts; the starts belong to
them. -/
def reachableFrom (index : Index) (starts : List Nat) : List Nat :=
  closure (fun v => (index.outgoing v).map fun w => w.target.position) index.positions starts

/-- The positions from which a path of wires leads to one of the goals; the goals belong to them. -/
def reaching (index : Index) (goals : List Nat) : List Nat :=
  closure (fun v => (index.incoming v).map fun w => w.source.position) index.positions goals

/-- The positions that some input feeds. -/
def fed (index : Index) : List Nat := index.reachableFrom (index.inputs.map Vertex.position)

/-- The positions that feed some output. -/
def useful (index : Index) : List Nat := index.reaching (index.outputs.map Vertex.position)

end Index

end CircuitGraph
