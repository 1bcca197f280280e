import CircuitGraph.Proofs.Graph.Dataflow
import CircuitGraph.Proofs.Graph.Reach

/-!
# Wires as edges

Wires belong to positions, while edges name ids. Here the wires of an index are read as edges again:
they are the well-formed edges of the graph, in order (`map_edge_wires`), and those that arrive at
the owner of an id are the ones that name the id as their target (`map_edge_incoming`).
-/

namespace CircuitGraph

namespace Graph

variable (g : Graph)

/-- Whether an edge has two ends and fitting ports. -/
def isWellFormed (e : Edge) : Bool := (linkEnds g.vertices e).isOk

/-- The edges that name an id as their target, in graph order. -/
def edgesInto (id : String) : List Edge := g.edges.filter fun e => e.target == id

/-- The wires of a graph are its well-formed edges, in order. -/
theorem map_edge_wires : g.index.wires.map Wire.edge = g.edges.filter g.isWellFormed := by
  have hlink : ∀ p : Edge × Nat,
      (Link.wire? ⟨p.2, p.1, linkEnds g.vertices p.1⟩).map Wire.edge =
        Option.guard g.isWellFormed p.1 := by
    rintro ⟨e, i⟩
    cases hends : linkEnds g.vertices e with
    | error fault =>
      simp [Link.wire?, Option.guard, isWellFormed, hends, Except.isOk, Except.toBool]
    | ok ends =>
      simp [Link.wire?, Option.guard, isWellFormed, hends, Except.isOk, Except.toBool]
  calc g.index.wires.map Wire.edge
      = g.edges.zipIdx.filterMap fun p => Option.guard g.isWellFormed p.1 := by
        simp only [index, List.map_filterMap, List.filterMap_map]
        exact congrArg (fun f => List.filterMap f _) (funext hlink)
    _ = (g.edges.zipIdx.map Prod.fst).filterMap (Option.guard g.isWellFormed) := by
        rw [List.filterMap_map]
        rfl
    _ = g.edges.filter g.isWellFormed := by
        rw [List.zipIdx_map_fst, List.filterMap_eq_filter]

/-- The wires that arrive at the owner of an id are the well-formed edges that name the id, in
order. -/
theorem map_edge_incoming {v : Vertex} (hv : v ∈ g.index.owners) :
    (g.index.incoming v.position).map Wire.edge = (g.edgesInto v.id).filter g.isWellFormed := by
  have hi := g.index_sound
  -- a wire ends at the position of the vertex exactly when its edge names the vertex
  have htarget : ∀ w ∈ g.index.wires,
      (w.target.position == v.position) = (w.edge.target == v.id) := by
    intro w hw
    obtain ⟨hmem, hid⟩ := owner?_eq_some (hi.target_owner w hw)
    rw [Bool.eq_iff_iff, beq_iff_eq, beq_iff_eq]
    constructor
    · intro hposition
      have heq : w.target = v :=
        hi.eq_of_position_eq hmem (Index.mem_vertices_of_mem_owners hv) hposition
      rw [← hid, heq]
    · intro hname
      have howner := hi.target_owner w hw
      rw [hname, hi.lookup?_id hv] at howner
      rw [Option.some.inj howner]
  calc (g.index.incoming v.position).map Wire.edge
      = (g.index.wires.filter fun w => w.edge.target == v.id).map Wire.edge := by
        rw [Index.incoming, List.filter_congr htarget]
    _ = (g.index.wires.map Wire.edge).filter fun e => e.target == v.id := by
        rw [List.filter_map]
        rfl
    _ = (g.edgesInto v.id).filter g.isWellFormed := by
        rw [map_edge_wires, edgesInto, List.filter_filter, List.filter_filter]
        exact List.filter_congr fun e _ => Bool.and_comm _ _

end Graph

end CircuitGraph
