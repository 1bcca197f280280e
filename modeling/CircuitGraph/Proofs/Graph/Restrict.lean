import CircuitGraph.Proofs.Graph.Image

/-!
# Leaving out what feeds nothing

`Graph.restrict` keeps the nodes whose ids pass a test, and the edges between them. When the test
passes exactly the ids of useful nodes, the index of what is left is an image of the index of the
graph (`Graph.image_restrict`): every wire into a kept vertex comes from a kept vertex, and what
remains of the list of vertices is the same vertices at other positions.
-/

namespace CircuitGraph

namespace Graph

/-- The nodes whose ids pass a test, with the edges between them. -/
def restrict (g : Graph) (keep : String → Bool) : Graph where
  nodes := g.nodes.filter fun node => keep node.id
  edges := g.edges.filter fun e => keep e.source && keep e.target

variable {g : Graph}

/-- What a useful node is fed by is useful. -/
theorem IsUseful.of_connects {source target : String} (h : g.IsUseful target)
    (hconnects : g.Connects source target) : g.IsUseful source := by
  obtain ⟨output, hmem, houtput, hpath⟩ := h
  exact ⟨output, hmem, houtput, hpath.head hconnects⟩

/-- An output is useful. -/
theorem isUseful_of_isOutput {node : Node} (hnode : node ∈ g.nodes) (h : node.isOutput = true) :
    g.IsUseful node.id := ⟨node, hnode, h, .refl⟩

/-- When no link has a fault, every edge has its ends. -/
theorem exists_linkEnds_eq_ok (hlinks : ∀ link ∈ g.index.links, link.fault? = none) {e : Edge}
    (he : e ∈ g.edges) : ∃ source target, linkEnds g.vertices e = .ok (source, target) := by
  obtain ⟨i, hi⟩ := List.mem_iff_getElem?.1 he
  have hlink := hlinks ⟨i, e, linkEnds g.vertices e⟩
    (List.mem_map.2 ⟨(e, i), List.mk_mem_zipIdx_iff_getElem?.2 hi, rfl⟩)
  cases hends : linkEnds g.vertices e with
  | ok ends => exact ⟨ends.1, ends.2, rfl⟩
  | error fault =>
    rw [Link.fault?, hends] at hlink
    cases hlink

/-- A path of edges, well formed or not, leads from the node of an id to an output. -/
def LeadsToOutput (g : Graph) (id : String) : Prop :=
  ∃ output ∈ g.nodes, output.isOutput = true ∧
    Relation.ReflTransGen (fun a b => ∃ e ∈ g.edges, e.source = a ∧ e.target = b) id output.id

/-- When no link has a fault, every path of edges counts. -/
theorem isUseful_iff_leadsToOutput (hlinks : ∀ link ∈ g.index.links, link.fault? = none)
    {id : String} : g.IsUseful id ↔ g.LeadsToOutput id := by
  have hconnects : g.Connects = fun a b => ∃ e ∈ g.edges, e.source = a ∧ e.target = b := by
    funext source target
    refine propext (exists_congr fun e => and_congr_right fun he => and_iff_right ?_)
    obtain ⟨_, _, hends⟩ := exists_linkEnds_eq_ok hlinks he
    simp [isWellFormed, hends, Except.isOk, Except.toBool]
  rw [IsUseful, LeadsToOutput, Reaches, hconnects]

variable {keep : String → Bool}

/-- The ids of what is left are distinct. -/
theorem nodup_ids_restrict (hids : (g.nodes.map Node.id).Nodup) :
    ((g.restrict keep).vertices.map Vertex.id).Nodup := by
  rw [map_id_vertices]
  exact hids.sublist (List.filter_sublist.map _)

/-- The nodes of what is left are those of the kept vertices. -/
theorem map_node_restrict (g : Graph) (keep : String → Bool) :
    (g.restrict keep).vertices.map Vertex.node =
      (g.vertices.filter fun v => keep v.id).map Vertex.node := by
  have hkept : (g.vertices.map Vertex.node).filter (fun node => keep node.id) =
      (g.vertices.filter fun v => keep v.id).map Vertex.node := List.filter_map
  rw [map_node_vertices, restrict, ← hkept, map_node_vertices]

/-- The kept vertices can be moved to their positions in what is left. -/
theorem exists_move_mem_restrict (g : Graph) (keep : String → Bool) :
    ∃ σ : Equiv.Perm Nat, ∀ v ∈ g.vertices, keep v.id = true →
      v.move σ ∈ (g.restrict keep).vertices := by
  -- the kept nodes followed by the others are the nodes in another order
  obtain ⟨σ, hσ⟩ := exists_perm_getElem?
    (List.filter_append_perm (fun node : Node => keep node.id) g.nodes).symm
  refine ⟨σ, fun v hv hkeep => mem_vertices_iff.2 ?_⟩
  have hat := (hσ v.position).trans (mem_vertices_iff.1 hv)
  rcases lt_or_ge (σ v.position) (g.nodes.filter fun node => keep node.id).length with hlt | hge
  · rwa [List.getElem?_append_left hlt] at hat
  · rw [List.getElem?_append_right hge] at hat
    have hdrop := (List.mem_filter.1 (List.mem_of_getElem? hat)).2
    rw [show keep v.node.id = true from hkeep] at hdrop
    cases hdrop

/-- The vertices of what is left are the kept ones, moved. -/
theorem exists_vertices_restrict (hids : (g.nodes.map Node.id).Nodup) (keep : String → Bool) :
    ∃ σ : Equiv.Perm Nat, (g.restrict keep).vertices =
      (g.vertices.filter fun v => keep v.id).map (Vertex.move σ) := by
  obtain ⟨σ, hσ⟩ := g.exists_move_mem_restrict keep
  have hnodes : (g.restrict keep).vertices.map Vertex.node =
      ((g.vertices.filter fun v => keep v.id).map (Vertex.move σ)).map Vertex.node := by
    rw [map_node_restrict, List.map_map]
    rfl
  refine ⟨σ, List.ext_getElem (by simpa using congrArg List.length hnodes) fun i hi hi' => ?_⟩
  -- both lists have the same nodes, and a vertex of what is left is known by its id
  have hnode := congrArg (fun l => l[i]?) hnodes
  simp only [List.getElem?_map, List.getElem?_eq_getElem, hi, hi', Option.map_some] at hnode
  have hright : ((g.vertices.filter fun v => keep v.id).map (Vertex.move σ))[i] ∈
      (g.restrict keep).vertices := by
    obtain ⟨v, hv, heq⟩ := List.mem_map.1 (List.getElem_mem hi')
    obtain ⟨hv, hkeep⟩ := List.mem_filter.1 hv
    exact heq ▸ hσ v hv hkeep
  exact List.inj_on_of_nodup_map (nodup_ids_restrict hids) (List.getElem_mem hi) hright
    (congrArg Node.id (Option.some.inj hnode))

section

variable {σ : Equiv.Perm Nat} (hids : (g.nodes.map Node.id).Nodup)
  (hlinks : ∀ link ∈ g.index.links, link.fault? = none)
  (hkeep : ∀ node ∈ g.nodes, keep node.id = true ↔ g.IsUseful node.id)
  (hvertices : (g.restrict keep).vertices =
    (g.vertices.filter fun v => keep v.id).map (Vertex.move σ))

include hids hlinks hkeep hvertices

/-- Each edge between kept nodes joins the moved ends. -/
theorem linkEnds_restrict {e : Edge} (he : e ∈ g.edges) :
    ∃ source target, linkEnds g.vertices e = .ok (source, target) ∧
      (keep e.source && keep e.target) = keep target.id ∧
      (keep target.id = true → linkEnds (g.restrict keep).vertices e =
        .ok (source.move σ, target.move σ)) := by
  obtain ⟨source, target, hends⟩ := exists_linkEnds_eq_ok hlinks he
  obtain ⟨hsource, htarget, -⟩ := linkEnds_eq_ok_iff.1 hends
  obtain ⟨hsourceMem, hsourceId⟩ := owner?_eq_some hsource
  obtain ⟨htargetMem, htargetId⟩ := owner?_eq_some htarget
  -- what a kept node is fed by is kept
  have hclosed : keep target.id = true → keep source.id = true := by
    intro htargetKeep
    have huseful := (hkeep _ (g.node_mem_of_mem_vertices htargetMem)).1 htargetKeep
    refine (hkeep _ (g.node_mem_of_mem_vertices hsourceMem)).2 (huseful.of_connects ?_)
    exact ⟨e, he, by simp [isWellFormed, hends, Except.isOk, Except.toBool], hsourceId.symm,
      htargetId.symm⟩
  refine ⟨source, target, hends, ?_, fun htargetKeep => ?_⟩
  · rw [← hsourceId, ← htargetId, Bool.and_eq_right_iff_imp]
    exact hclosed
  · have hmem : ∀ v ∈ g.vertices, keep v.id = true → v.move σ ∈ (g.restrict keep).vertices :=
      fun v hv hkeep => hvertices ▸ List.mem_map_of_mem (List.mem_filter.2 ⟨hv, hkeep⟩)
    exact linkEnds_image hends (nodup_ids_restrict hids) (fun _ => rfl)
      (hmem _ hsourceMem (hclosed htargetKeep)) (hmem _ htargetMem htargetKeep) hsourceId.symm
      htargetId.symm rfl rfl

/-- The wires of what is left are those into kept vertices. -/
theorem map_wires_restrict :
    (g.restrict keep).index.wires.map (fun w => (w.edge, w.source, w.target)) =
      (g.index.wires.filter fun w => keep w.target.id).map fun w =>
        (w.edge, w.source.move σ, w.target.move σ) :=
  map_wires_image (fun v => keep v.id) id (List.map_id _).symm
    fun _ => linkEnds_restrict hids hlinks hkeep hvertices

/-- What is left when only useful nodes are kept is an image of the graph. -/
theorem image_restrict :
    g.index.Image (fun v => keep v.id) (Vertex.move σ) (g.restrict keep).index where
  vertices := hvertices
  wires := by
    have hmap := congrArg (fun l => l.map fun k => (k.1.id, k.1.targetPort, k.2))
      (map_wires_restrict hids hlinks hkeep hvertices)
    rw [List.map_map, List.map_map] at hmap
    exact hmap
  links := fault?_eq_none_image (fun v => keep v.id) id (List.map_id _).symm
    fun _ => linkEnds_restrict hids hlinks hkeep hvertices
  closed := by
    intro w hw htarget
    have hsourceMem := g.index_sound.source_mem_vertices hw
    have htargetMem := g.index_sound.target_mem_vertices hw
    have huseful := (hkeep _ (g.node_mem_of_mem_vertices htargetMem)).1 htarget
    refine (hkeep _ (g.node_mem_of_mem_vertices hsourceMem)).2 (huseful.of_connects ?_)
    exact g.connects_iff_exists_wire.2 ⟨w, hw, rfl, rfl⟩
  outputs := fun v hv houtput =>
    have hnode := g.node_mem_of_mem_vertices hv
    (hkeep _ hnode).2 (isUseful_of_isOutput hnode houtput)
  position_eq_iff := fun u v => σ.apply_eq_iff_eq
  nodup_ids := by rwa [← map_id_vertices] at hids
  id_lt_iff := fun _ _ _ _ => Iff.rfl
  unlabelled_eq := fun _ => rfl

/-- The same edges arrive at a kept vertex, from the moved sources. -/
theorem incoming_restrict {v : Vertex} (hv : v ∈ g.index.vertices) (hkept : keep v.id = true) :
    (((g.restrict keep).index.incoming (σ v.position)).map fun w => (w.edge, w.source)) =
      (g.index.incoming v.position).map fun w => (w.edge, w.source.move σ) := by
  have hi := g.index_sound
  have hfilter := congrArg (fun l => (l.filter fun k => k.2.2.position == σ v.position).map
    fun k => (k.1, k.2.1)) (map_wires_restrict hids hlinks hkeep hvertices)
  simp only [List.filter_map, List.map_map, List.filter_filter, Function.comp_def,
    Vertex.position_move, beq_eq_decide, σ.apply_eq_iff_eq] at hfilter
  simp only [Index.incoming, beq_eq_decide, hfilter]
  refine congrArg _ (List.filter_congr fun w hw => ?_)
  rw [Bool.and_eq_left_iff_imp, decide_eq_true_eq]
  intro hposition
  rwa [hi.eq_of_position_eq (hi.target_mem_vertices hw) hv hposition]

end

end Graph

end CircuitGraph
