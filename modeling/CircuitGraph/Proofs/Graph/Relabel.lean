import CircuitGraph.Proofs.Graph.Restrict

/-!
# Other ids and labels

`Graph.relabel` gives the nodes of a graph other ids and labels, and lets the edges name the new
ids. When the new ids stand in the order of the old ones, the index of the relabelled graph is an
image of the index of the graph (`Graph.image_relabel`), in which every vertex keeps its position.
-/

namespace CircuitGraph

/-- The node under another id and with another label. -/
def Node.relabel (rename : String → String) (label : Node → String) (node : Node) : Node :=
  ⟨rename node.id, node.kind.withLabel (label node)⟩

/-- The edge between nodes with other ids. -/
def Edge.relabel (rename : String → String) (e : Edge) : Edge :=
  { e with source := rename e.source, target := rename e.target }

/-- The vertex with its node relabelled. -/
def Vertex.relabel (rename : String → String) (label : Node → String) (v : Vertex) : Vertex :=
  ⟨v.position, v.node.relabel rename label⟩

namespace Graph

/-- The graph with other ids and labels. -/
def relabel (g : Graph) (rename : String → String) (label : Node → String) : Graph where
  nodes := g.nodes.map (Node.relabel rename label)
  edges := g.edges.map (Edge.relabel rename)

variable {g : Graph} {rename : String → String}

/-- The vertices are relabelled at their positions. -/
theorem vertices_relabel (g : Graph) (rename : String → String) (label : Node → String) :
    (g.relabel rename label).vertices = g.vertices.map (Vertex.relabel rename label) := by
  rw [vertices, vertices, relabel, List.zipIdx_map, List.map_map, List.map_map]
  rfl

section

variable (hids : (g.nodes.map Node.id).Nodup)
  (hrename : ∀ u ∈ g.nodes, ∀ v ∈ g.nodes, u.id < v.id → rename u.id < rename v.id)

include hrename

/-- The new ids stand in the order of the old ones. -/
theorem rename_lt_iff {u v : Node} (hu : u ∈ g.nodes) (hv : v ∈ g.nodes) :
    rename u.id < rename v.id ↔ u.id < v.id := by
  refine ⟨fun hlt => ?_, hrename u hu v hv⟩
  by_contra hnot
  by_cases hback : v.id < u.id
  · exact String.lt_asymm hlt (hrename v hv u hu hback)
  · have hsame : u.id = v.id := String.le_antisymm (String.not_lt.1 hback) (String.not_lt.1 hnot)
    rw [hsame] at hlt
    exact String.lt_irrefl _ hlt

variable (label : Node → String)

include hids

/-- The new ids are distinct. -/
theorem nodup_ids_relabel : ((g.relabel rename label).nodes.map Node.id).Nodup := by
  rw [relabel, List.map_map]
  refine (hids.of_map _).map_on fun u hu v hv hsame => ?_
  refine List.inj_on_of_nodup_map hids hu hv ?_
  have hnot : ¬ u.id < v.id ∧ ¬ v.id < u.id := by
    rw [← rename_lt_iff hrename hu hv, ← rename_lt_iff hrename hv hu,
      show rename u.id = rename v.id from hsame]
    exact ⟨String.lt_irrefl _, String.lt_irrefl _⟩
  exact String.le_antisymm (String.not_lt.1 hnot.2) (String.not_lt.1 hnot.1)

variable (hlinks : ∀ link ∈ g.index.links, link.fault? = none)

include hlinks

/-- Each edge joins the relabelled ends. -/
theorem linkEnds_relabel {e : Edge} (he : e ∈ g.edges) :
    ∃ source target, linkEnds g.vertices e = .ok (source, target) ∧
      linkEnds (g.relabel rename label).vertices (e.relabel rename) =
        .ok (source.relabel rename label, target.relabel rename label) := by
  obtain ⟨source, target, hends⟩ := exists_linkEnds_eq_ok hlinks he
  obtain ⟨hsource, htarget, -⟩ := linkEnds_eq_ok_iff.1 hends
  obtain ⟨hsourceMem, hsourceId⟩ := owner?_eq_some hsource
  obtain ⟨htargetMem, htargetId⟩ := owner?_eq_some htarget
  have hids' := nodup_ids_relabel hids hrename label
  have hmem : ∀ v ∈ g.vertices,
      v.relabel rename label ∈ (g.relabel rename label).vertices := fun v hv => by
    rw [vertices_relabel]
    exact List.mem_map_of_mem hv
  refine ⟨source, target, hends, ?_⟩
  refine linkEnds_image hends (by rwa [map_id_vertices]) (fun _ => ?_) (hmem _ hsourceMem)
    (hmem _ htargetMem) (congrArg rename hsourceId.symm) (congrArg rename htargetId.symm) rfl rfl
  exact NodeKind.unlabelled_withLabel _ _

/-- A relabelled graph is an image of the graph. -/
theorem image_relabel :
    g.index.Image (fun _ => true) (Vertex.relabel rename label)
      (g.relabel rename label).index := by
  have hedges : (g.relabel rename label).edges =
      (g.edges.filter fun _ => true).map (Edge.relabel rename) := by
    rw [List.filter_true]
    rfl
  have hends : ∀ e ∈ g.edges, ∃ source target, linkEnds g.vertices e = .ok (source, target) ∧
      true = true ∧ (true = true → linkEnds (g.relabel rename label).vertices (e.relabel rename) =
        .ok (source.relabel rename label, target.relabel rename label)) := by
    intro e he
    obtain ⟨source, target, hends, hends'⟩ := linkEnds_relabel hids hrename label hlinks he
    exact ⟨source, target, hends, rfl, fun _ => hends'⟩
  exact
    { vertices := by
        rw [List.filter_true]
        exact vertices_relabel g rename label
      wires := by
        have hmap := congrArg (fun l => l.map fun k => (k.1.id, k.1.targetPort, k.2))
          (map_wires_image (fun _ => true) (Edge.relabel rename) hedges hends)
        rw [List.map_map, List.map_map] at hmap
        exact hmap
      links := fault?_eq_none_image (fun _ => true) (Edge.relabel rename) hedges hends
      closed := fun _ _ _ => rfl
      outputs := fun _ _ _ => rfl
      position_eq_iff := fun _ _ => Iff.rfl
      nodup_ids := by rwa [← map_id_vertices] at hids
      id_lt_iff := fun u hu v hv =>
        rename_lt_iff hrename (g.node_mem_of_mem_vertices hu) (g.node_mem_of_mem_vertices hv)
      unlabelled_eq := fun _ => NodeKind.unlabelled_withLabel _ _ }

end

end Graph

end CircuitGraph
