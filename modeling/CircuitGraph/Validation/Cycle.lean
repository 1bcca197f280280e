import CircuitGraph.Diagnostic
import CircuitGraph.Graph.Index

/-!
# Cycles

A depth-first search walks along every wire once. The vertices on the current path form a list of
frames, the innermost first, each with the wires that are still to be followed. A wire that leads
back to a vertex on the path closes a cycle, which is reported as the part of the path from that
vertex on.
-/

namespace CircuitGraph.Validation

/-- A vertex on the current path with its wires that have not been followed. -/
structure Frame where
  /-- The vertex. -/
  vertex : Vertex
  /-- The wires to be followed. -/
  pending : List Wire

/-- The vertices of the path from the one at a position to its innermost one, outermost first. -/
def pathFrom (path : List Frame) (position : Nat) : List Vertex :=
  ((path.map Frame.vertex).takeWhile fun v => v.position != position).reverse

/-- The work that a path still holds: its wires and its frames. -/
def pathWork : List Frame → Nat
  | [] => 0
  | f :: path => f.pending.length + 1 + pathWork path

/-- Follows the wires of a path until it is used up. `fresh` holds the positions that have not been
visited. Gives the cycles in the order in which they close, each from its first vertex to the last
one before it returns, with the positions that are still fresh. -/
def follow (index : Index) (fresh : List Nat) (path : List Frame) :
    List (List Vertex) × List Nat :=
  match path with
  | [] => ([], fresh)
  | ⟨_, []⟩ :: path => follow index fresh path
  | ⟨v, w :: pending⟩ :: path =>
    if _h : w.target.position ∈ fresh then
      follow index (fresh.erase w.target.position)
        (⟨w.target, index.outgoing w.target.position⟩ :: ⟨v, pending⟩ :: path)
    else if (⟨v, pending⟩ :: path).any fun f => f.vertex.position == w.target.position then
      let (cycles, fresh) := follow index fresh (⟨v, pending⟩ :: path)
      ((w.target :: pathFrom (⟨v, pending⟩ :: path) w.target.position) :: cycles, fresh)
    else
      follow index fresh (⟨v, pending⟩ :: path)
termination_by (fresh.length, pathWork path)
decreasing_by
  · exact Prod.Lex.right _ (by simp [pathWork])
  · have := List.length_erase_of_mem _h
    have := List.length_pos_of_mem _h
    exact Prod.Lex.left _ _ (by omega)
  · exact Prod.Lex.right _ (by simp [pathWork])
  · exact Prod.Lex.right _ (by simp [pathWork])

/-- Searches from every root that is still fresh when its turn comes. -/
def searchFrom (index : Index) (fresh : List Nat) : List Vertex → List (List Vertex)
  | [] => []
  | root :: roots =>
    if root.position ∈ fresh then
      let start := ⟨root, index.outgoing root.position⟩
      let (cycles, fresh) := follow index (fresh.erase root.position) [start]
      cycles ++ searchFrom index fresh roots
    else
      searchFrom index fresh roots

/-- The cycles that the search closes. -/
def cycles (index : Index) : List (List Vertex) :=
  searchFrom index (index.vertices.map Vertex.position) index.owners

/-- The report of a cycle, which returns to its first vertex. -/
def cycleReport? : List Vertex → Option Diagnostic
  | [] => none
  | first :: rest =>
    let path := " -> ".intercalate ((first :: rest).map Vertex.id ++ [first.id])
    some (.atNode .cycleDetected first.id s!"cycle detected: {path}")

/-- Every cycle that the search closes, reported. -/
def cyclesDetected (index : Index) : List Diagnostic := (cycles index).filterMap cycleReport?

end CircuitGraph.Validation
