import CircuitGraph.Graph.Reach
import Mathlib.Data.List.Nodup
import Mathlib.Data.List.Range
import Mathlib.Logic.Relation

/-!
# What an index promises

The stages after indexing never look at a graph again: they follow the wires of its index. What
they may rely on is collected in `Index.Sound`, and `Graph.index_sound` says that the index of every
graph keeps it. A wire joins two vertices that own their ids, it leaves at an output and it arrives
at a port of its target; and a vertex is known by its position.

`Index.Leads` is the relation of which a path is made. A position that ends (`Index.Ends`) has no
endless path from it, which is how the searches of the later modules speak about cycles.
-/

namespace CircuitGraph

/-- What later stages rely on in an index. -/
structure Index.Sound (index : Index) : Prop where
  /-- The positions count the vertices. -/
  positions_eq : index.positions = List.range index.vertices.length
  /-- The source of a wire owns the id that the edge names. -/
  source_owner : ∀ w ∈ index.wires, index.lookup? w.edge.source = some w.source
  /-- The target of a wire owns the id that the edge names. -/
  target_owner : ∀ w ∈ index.wires, index.lookup? w.edge.target = some w.target
  /-- The source of a wire has an output. -/
  source_port : ∀ w ∈ index.wires, w.source.node.hasOutputPort = true
  /-- The target of a wire has the port that the edge names. -/
  target_port : ∀ w ∈ index.wires, w.target.node.ports.contains w.edge.targetPort = true

/-- The positions of the vertices of a graph count them. -/
theorem Graph.positions_vertices (g : Graph) :
    g.vertices.map Vertex.position = List.range g.vertices.length := by
  have hsnd : (Vertex.position ∘ fun p : Node × Nat => (⟨p.2, p.1⟩ : Vertex)) = Prod.snd := rfl
  rw [Graph.vertices, List.map_map, hsnd, List.zipIdx_map_snd, List.length_map, List.length_zipIdx,
    List.range_eq_range']

/-- The ends of an edge without fault: they own the ids that the edge names, and the ports exist. -/
theorem linkEnds_eq_ok {vertices : List Vertex} {edge : Edge} {source target : Vertex}
    (h : linkEnds vertices edge = .ok (source, target)) :
    owner? vertices edge.source = some source ∧ owner? vertices edge.target = some target ∧
      source.node.hasOutputPort = true ∧ target.node.ports.contains edge.targetPort = true := by
  unfold linkEnds at h
  split at h
  · cases h
  · rename_i s hs
    split at h
    · cases h
    · rename_i t ht
      split at h
      · cases h
      · split at h
        · cases h
        · rename_i hport hports
          -- all four faults have been excluded
          obtain ⟨rfl, rfl⟩ : s = source ∧ t = target := by simpa using h
          simp only [Bool.or_eq_true, Bool.not_eq_true', not_or, Bool.not_eq_false] at hport hports
          exact ⟨hs, ht, hport.1, hports⟩

/-- The ends of an edge are moved when the owners of the ids that it names are. -/
theorem linkEnds_map {vertices vertices' : List Vertex} {φ : Vertex → Vertex}
    (hnode : ∀ v, (φ v).node = v.node) {edge : Edge}
    (hsource : owner? vertices' edge.source = (owner? vertices edge.source).map φ)
    (htarget : owner? vertices' edge.target = (owner? vertices edge.target).map φ) :
    linkEnds vertices' edge = (linkEnds vertices edge).map (Prod.map φ φ) := by
  unfold linkEnds
  rw [hsource, htarget]
  cases owner? vertices edge.source with
  | none => rfl
  | some source =>
    cases owner? vertices edge.target with
    | none => rfl
    | some target =>
      simp only [Option.map_some, hnode, apply_ite (Except.map _)]
      rfl

/-- A wire is made of a link by forgetting that its ends may be missing. -/
theorem Link.wire?_eq_some_iff {link : Link} {w : Wire} :
    link.wire? = some w ↔ link = ⟨w.position, w.edge, .ok (w.source, w.target)⟩ := by
  obtain ⟨position, edge, ends⟩ := link
  obtain ⟨position', edge', source, target⟩ := w
  cases ends with
  | error fault => simp [wire?]
  | ok ends => simp [wire?, Prod.ext_iff]

/-- A wire of a graph is an edge whose ends have been found. -/
theorem Graph.linkEnds_of_mem_wires {g : Graph} {w : Wire} (h : w ∈ g.index.wires) :
    linkEnds g.vertices w.edge = .ok (w.source, w.target) := by
  obtain ⟨link, hlink, hw⟩ := List.mem_filterMap.1 h
  obtain ⟨⟨edge, i⟩, -, rfl⟩ := List.mem_map.1 hlink
  unfold Link.wire? at hw
  split at hw
  · rename_i source target hends
    cases hw
    exact hends
  · cases hw

/-- The index of a graph is sound. -/
theorem Graph.index_sound (g : Graph) : g.index.Sound where
  positions_eq := g.positions_vertices
  source_owner _ h := (linkEnds_eq_ok (linkEnds_of_mem_wires h)).1
  target_owner _ h := (linkEnds_eq_ok (linkEnds_of_mem_wires h)).2.1
  source_port _ h := (linkEnds_eq_ok (linkEnds_of_mem_wires h)).2.2.1
  target_port _ h := (linkEnds_eq_ok (linkEnds_of_mem_wires h)).2.2.2

/-- The owner of an id is a vertex with that id. -/
theorem owner?_eq_some {vertices : List Vertex} {id : String} {v : Vertex}
    (h : owner? vertices id = some v) : v ∈ vertices ∧ v.id = id :=
  ⟨List.mem_of_find?_eq_some h, by simpa using List.find?_some h⟩

/-- When no id is shared, every vertex owns its id. -/
theorem owner?_eq_some_iff {vertices : List Vertex} (hids : (vertices.map Vertex.id).Nodup)
    {id : String} {v : Vertex} : owner? vertices id = some v ↔ v ∈ vertices ∧ v.id = id := by
  refine ⟨owner?_eq_some, ?_⟩
  rintro ⟨hv, rfl⟩
  cases hfind : owner? vertices v.id with
  | none => simpa using List.find?_eq_none.1 hfind v hv
  | some u =>
    obtain ⟨hu, hid⟩ := owner?_eq_some hfind
    rw [List.inj_on_of_nodup_map hids hu hv hid]

/-- When no id is shared, no vertex is shadowed. -/
theorem Index.not_isShadowed_of_nodup {index : Index}
    (hids : (index.vertices.map Vertex.id).Nodup) {v : Vertex} (hv : v ∈ index.vertices) :
    index.isShadowed v = false := by
  have hlookup : index.lookup? v.id = some v := (owner?_eq_some_iff hids).2 ⟨hv, rfl⟩
  simp [isShadowed, hlookup]

/-- When no id is shared, no shadowed vertex is found. -/
theorem Index.find?_isShadowed {index : Index} (hids : (index.vertices.map Vertex.id).Nodup) :
    index.vertices.find? index.isShadowed = none :=
  List.find?_eq_none.2 fun v hv => by simp [not_isShadowed_of_nodup hids hv]

/-- When no id is shared, every vertex is an owner. -/
theorem Index.owners_eq_vertices {index : Index} (hids : (index.vertices.map Vertex.id).Nodup) :
    index.owners = index.vertices :=
  List.filter_eq_self.2 fun _ hv => by rw [not_isShadowed_of_nodup hids hv]; rfl

namespace Index.Sound

variable {index : Index} (hi : index.Sound)

include hi

/-- No position is repeated. -/
theorem nodup_positions : index.positions.Nodup := by
  rw [hi.positions_eq]
  exact List.nodup_range

/-- No vertex is repeated. -/
theorem nodup_vertices : index.vertices.Nodup := hi.nodup_positions.of_map _

/-- A position is a number below that of the vertices. -/
theorem position_lt {v : Vertex} (hv : v ∈ index.vertices) :
    v.position < index.vertices.length := by
  have hp : v.position ∈ index.positions := List.mem_map_of_mem hv
  rw [hi.positions_eq] at hp
  exact List.mem_range.1 hp

/-- A vertex is known by its position. -/
theorem eq_of_position_eq {v u : Vertex} (hv : v ∈ index.vertices) (hu : u ∈ index.vertices)
    (h : v.position = u.position) : v = u :=
  List.inj_on_of_nodup_map hi.nodup_positions hv hu h

/-- The source of a wire is a vertex that owns its id. -/
theorem source_mem_owners {w : Wire} (hw : w ∈ index.wires) : w.source ∈ index.owners := by
  have hs := hi.source_owner w hw
  obtain ⟨hmem, hid⟩ := owner?_eq_some hs
  refine List.mem_filter.2 ⟨hmem, ?_⟩
  rw [← hid] at hs
  simp [Index.isShadowed, hs]

/-- The target of a wire is a vertex that owns its id. -/
theorem target_mem_owners {w : Wire} (hw : w ∈ index.wires) : w.target ∈ index.owners := by
  have ht := hi.target_owner w hw
  obtain ⟨hmem, hid⟩ := owner?_eq_some ht
  refine List.mem_filter.2 ⟨hmem, ?_⟩
  rw [← hid] at ht
  simp [Index.isShadowed, ht]

end Index.Sound

/-- An owner is a vertex. -/
theorem Index.mem_vertices_of_mem_owners {index : Index} {v : Vertex} (h : v ∈ index.owners) :
    v ∈ index.vertices := (List.mem_filter.1 h).1

/-- The source of a wire is a vertex. -/
theorem Index.Sound.source_mem_vertices {index : Index} (hi : index.Sound) {w : Wire}
    (hw : w ∈ index.wires) : w.source ∈ index.vertices :=
  mem_vertices_of_mem_owners (hi.source_mem_owners hw)

/-- The target of a wire is a vertex. -/
theorem Index.Sound.target_mem_vertices {index : Index} (hi : index.Sound) {w : Wire}
    (hw : w ∈ index.wires) : w.target ∈ index.vertices :=
  mem_vertices_of_mem_owners (hi.target_mem_owners hw)

/-- What arrives at a position is the wires with a target there. -/
theorem Index.mem_incoming {index : Index} {p : Nat} {w : Wire} :
    w ∈ index.incoming p ↔ w ∈ index.wires ∧ w.target.position = p := by
  simp [Index.incoming]

/-- What leaves a position is the wires with a source there. -/
theorem Index.mem_outgoing {index : Index} {p : Nat} {w : Wire} :
    w ∈ index.outgoing p ↔ w ∈ index.wires ∧ w.source.position = p := by
  simp [Index.outgoing]

/-! ## Paths -/

/-- A wire leads from one position to another. -/
def Index.Leads (index : Index) (a b : Nat) : Prop :=
  ∃ w ∈ index.wires, w.source.position = a ∧ w.target.position = b

/-- Every path from a position comes to an end. -/
def Index.Ends (index : Index) (p : Nat) : Prop := Acc (fun b a => index.Leads a b) p

/-- No path of wires returns to where it started. -/
def Index.Acyclic (index : Index) : Prop := ∀ p, ¬ Relation.TransGen index.Leads p p

/-- A position ends when every wire that leaves it leads to one that ends. -/
theorem Index.ends_of_outgoing {index : Index} {p : Nat}
    (h : ∀ w ∈ index.outgoing p, index.Ends w.target.position) : index.Ends p := by
  refine Acc.intro p ?_
  rintro b ⟨w, hw, hs, rfl⟩
  exact h w (mem_outgoing.2 ⟨hw, hs⟩)

/-- A graph all of whose positions end has no cycle. -/
theorem Index.acyclic_of_ends {index : Index} (h : ∀ p, index.Ends p) : index.Acyclic := by
  intro p hp
  have hwf : WellFounded fun b a => index.Leads a b := ⟨h⟩
  -- a path back to the start would be an infinite descent
  have hloop := Relation.transGen_swap.2 hp
  exact hwf.transGen.asymmetric p p hloop hloop

/-- Every vertex of the list owns its id and has a wire from a vertex of the list, so a path can be
followed backwards for ever without leaving the list. -/
def Index.SelfFed (index : Index) (vs : List Vertex) : Prop :=
  ∀ v ∈ vs, v ∈ index.owners ∧ ∃ w ∈ index.incoming v.position, w.source ∈ vs

end CircuitGraph
