import CircuitGraph.Proofs.Graph.Part

/-!
# Two circuits on one canvas

`g.beside h` is what an editor holds when two graphs stand on one canvas: the nodes of `g` are
followed by those of `h`, and so are the edges. When the two share no id and no edge of the one
names a node of the other (`Graph.Apart`), the index of both is the two indexes one behind the other
(`Graph.Apart.vertices`, `Graph.Apart.links`, `Graph.Apart.wires`), and each of them is a part of it
(`Graph.Apart.left_part`, `Graph.Apart.right_part`).
-/

namespace CircuitGraph

/-- The same edge further on in the list, with the ends that are found moved on as well. -/
def Link.shift (n m : Nat) (link : Link) : Link :=
  ⟨link.position + m, link.edge, link.ends.map (Prod.map (Vertex.shift n) (Vertex.shift n))⟩

namespace Link

variable (n m : Nat) (link : Link)

/-- Moving on does not change the edge. -/
@[simp] theorem edge_shift : (link.shift n m).edge = link.edge := rfl

/-- Moving on does not change the fault. -/
@[simp] theorem fault?_shift : (link.shift n m).fault? = link.fault? := by
  obtain ⟨position, edge, ends⟩ := link
  cases ends <;> rfl

/-- The wire of a link that is moved on. -/
@[simp] theorem wire?_shift : (link.shift n m).wire? = link.wire?.map (Wire.shift n m) := by
  obtain ⟨position, edge, ends⟩ := link
  cases ends <;> rfl

end Link

/-- A list and one of which nothing is kept. -/
theorem filter_append_eq_left {α : Type} {keep : α → Bool} {l l' : List α}
    (hl : ∀ x ∈ l, keep x = true) (hl' : ∀ x ∈ l', keep x = false) :
    (l ++ l').filter keep = l := by
  have hnil : l'.filter keep = [] := List.filter_eq_nil_iff.2 fun x hx => by simp [hl' x hx]
  rw [List.filter_append, List.filter_eq_self.2 hl, hnil, List.append_nil]

/-- A list behind one of which nothing is kept. -/
theorem filter_append_eq_right {α : Type} {keep : α → Bool} {l l' : List α}
    (hl : ∀ x ∈ l, keep x = false) (hl' : ∀ x ∈ l', keep x = true) :
    (l ++ l').filter keep = l' := by
  have hnil : l.filter keep = [] := List.filter_eq_nil_iff.2 fun x hx => by simp [hl x hx]
  rw [List.filter_append, List.filter_eq_self.2 hl', hnil, List.nil_append]

namespace Graph

/-- The nodes and the edges of two graphs, one behind the other. -/
def beside (g h : Graph) : Graph := ⟨g.nodes ++ h.nodes, g.edges ++ h.edges⟩

/-- Two graphs that have nothing to do with each other. -/
structure Apart (g h : Graph) : Prop where
  /-- No id is shared. -/
  ids : ∀ a ∈ g.nodes, ∀ b ∈ h.nodes, a.id ≠ b.id
  /-- No edge of the first graph names a node of the second one. -/
  left_edges : ∀ e ∈ g.edges, ∀ b ∈ h.nodes, e.source ≠ b.id ∧ e.target ≠ b.id
  /-- No edge of the second graph names a node of the first one. -/
  right_edges : ∀ e ∈ h.edges, ∀ a ∈ g.nodes, e.source ≠ a.id ∧ e.target ≠ a.id

/-- There are as many vertices as nodes. -/
theorem length_vertices (g : Graph) : g.vertices.length = g.nodes.length := by
  rw [vertices, List.length_map, List.length_zipIdx]

/-- The position of a vertex is a number below that of the nodes. -/
theorem position_lt {g : Graph} {v : Vertex} (hv : v ∈ g.vertices) :
    v.position < g.nodes.length := by
  rw [← length_vertices]
  exact g.index_sound.position_lt hv

/-- The vertices of two graphs one behind the other. -/
theorem vertices_beside (g h : Graph) :
    (g.beside h).vertices = g.vertices ++ h.vertices.map (Vertex.shift g.nodes.length) := by
  have hshift : (h.nodes.zipIdx g.nodes.length).map (fun p => (⟨p.2, p.1⟩ : Vertex)) =
      h.vertices.map (Vertex.shift g.nodes.length) := by
    rw [List.zipIdx_eq_map_add, List.map_map, vertices, List.map_map]
    refine List.map_congr_left fun p _ => ?_
    simp only [Function.comp_apply, Vertex.shift, Nat.add_comm]
  rw [vertices, beside, List.zipIdx_append, List.map_append, Nat.zero_add]
  exact congrArg _ hshift

variable {g h : Graph}

/-- An id that no node of the second graph has belongs to the same vertex as in the first one. -/
theorem owner?_beside_left {id : String} (hid : ∀ b ∈ h.nodes, id ≠ b.id) :
    owner? (g.beside h).vertices id = owner? g.vertices id := by
  have hnone : (h.vertices.map (Vertex.shift g.nodes.length)).find? (fun v => v.id == id) =
      none := by
    refine List.find?_eq_none.2 fun v' hv' => ?_
    obtain ⟨v, hv, rfl⟩ := List.mem_map.1 hv'
    have hne := hid v.node (h.node_mem_of_mem_vertices hv)
    exact fun heq => hne (beq_iff_eq.1 heq).symm
  rw [owner?, vertices_beside, List.find?_append, hnone, Option.or_none]
  rfl

/-- An id that no node of the first graph has belongs to the same vertex as in the second one. -/
theorem owner?_beside_right {id : String} (hid : ∀ a ∈ g.nodes, id ≠ a.id) :
    owner? (g.beside h).vertices id =
      (owner? h.vertices id).map (Vertex.shift g.nodes.length) := by
  have hnone : g.vertices.find? (fun v => v.id == id) = none := by
    refine List.find?_eq_none.2 fun v hv => ?_
    have hne := hid v.node (g.node_mem_of_mem_vertices hv)
    exact fun heq => hne (beq_iff_eq.1 heq).symm
  rw [owner?, vertices_beside, List.find?_append, hnone, Option.none_or, List.find?_map]
  rfl

namespace Apart

variable (ha : g.Apart h)

include ha

/-- The ends of an edge of the first graph are those that it has there. -/
theorem linkEnds_left {e : Edge} (he : e ∈ g.edges) :
    linkEnds (g.beside h).vertices e = linkEnds g.vertices e := by
  rw [linkEnds, owner?_beside_left fun b hb => (ha.left_edges e he b hb).1,
    owner?_beside_left fun b hb => (ha.left_edges e he b hb).2]
  rfl

/-- The ends of an edge of the second graph are those that it has there, moved on. -/
theorem linkEnds_right {e : Edge} (he : e ∈ h.edges) :
    linkEnds (g.beside h).vertices e = (linkEnds h.vertices e).map
      (Prod.map (Vertex.shift g.nodes.length) (Vertex.shift g.nodes.length)) :=
  linkEnds_map (Vertex.node_shift _)
    (owner?_beside_right fun a hmem => (ha.right_edges e he a hmem).1)
    (owner?_beside_right fun a hmem => (ha.right_edges e he a hmem).2)

/-- The links of two graphs one behind the other. -/
theorem links : (g.beside h).index.links =
    g.index.links ++ h.index.links.map (Link.shift g.nodes.length g.edges.length) := by
  have hleft : g.edges.zipIdx.map (fun p =>
      (⟨p.2, p.1, linkEnds (g.beside h).vertices p.1⟩ : Link)) = g.index.links := by
    refine List.map_congr_left fun p hp => ?_
    rw [ha.linkEnds_left (List.fst_mem_of_mem_zipIdx hp)]
  have hright : (h.edges.zipIdx g.edges.length).map (fun p =>
      (⟨p.2, p.1, linkEnds (g.beside h).vertices p.1⟩ : Link)) =
        h.index.links.map (Link.shift g.nodes.length g.edges.length) := by
    rw [List.zipIdx_eq_map_add, List.map_map, index, List.map_map]
    refine List.map_congr_left fun p hp => ?_
    simp only [Function.comp_apply, Link.shift, Nat.add_comm,
      ha.linkEnds_right (List.fst_mem_of_mem_zipIdx hp)]
  rw [index, beside, List.zipIdx_append, List.map_append, Nat.zero_add]
  exact congrArg₂ _ hleft hright

/-- The wires of two graphs one behind the other. -/
theorem wires : (g.beside h).index.wires =
    g.index.wires ++ h.index.wires.map (Wire.shift g.nodes.length g.edges.length) := by
  show (g.beside h).index.links.filterMap Link.wire? = _
  rw [ha.links, List.filterMap_append, List.filterMap_map]
  refine congrArg _ ?_
  show _ = (h.index.links.filterMap Link.wire?).map _
  rw [List.map_filterMap]
  exact congrArg (fun f => List.filterMap f _) (funext fun link => Link.wire?_shift _ _ link)

omit ha in
/-- A vertex of two graphs comes from the first one or, moved on, from the second one. -/
theorem mem_vertices_beside {v : Vertex} : v ∈ (g.beside h).vertices ↔
    v ∈ g.vertices ∨ ∃ u ∈ h.vertices, u.shift g.nodes.length = v := by
  rw [vertices_beside, List.mem_append, List.mem_map]

/-- A wire joins two vertices of the first graph or two of the second one. -/
theorem source_lt_iff {w : Wire} (hw : w ∈ (g.beside h).index.wires) :
    w.source.position < g.nodes.length ↔ w.target.position < g.nodes.length := by
  rw [ha.wires, List.mem_append, List.mem_map] at hw
  rcases hw with hw | ⟨u, -, rfl⟩
  · exact iff_of_true (position_lt (g.index_sound.source_mem_vertices hw))
      (position_lt (g.index_sound.target_mem_vertices hw))
  · exact iff_of_false (Nat.not_lt.2 (u.source.le_position_shift _))
      (Nat.not_lt.2 (u.target.le_position_shift _))

/-- An id is shared by two vertices of the first graph or by two of the second one. -/
theorem lt_iff_of_id_eq {u v : Vertex} (hu : u ∈ (g.beside h).vertices)
    (hv : v ∈ (g.beside h).vertices) (hid : u.id = v.id) :
    u.position < g.nodes.length ↔ v.position < g.nodes.length := by
  have hne : ∀ a ∈ g.vertices, ∀ b ∈ h.vertices, a.id ≠ b.id := fun a hmem b hmem' =>
    ha.ids _ (g.node_mem_of_mem_vertices hmem) _ (h.node_mem_of_mem_vertices hmem')
  rcases mem_vertices_beside.1 hu with hu | ⟨a, hmem, rfl⟩ <;>
    rcases mem_vertices_beside.1 hv with hv | ⟨b, hmem', rfl⟩
  · exact iff_of_true (position_lt hu) (position_lt hv)
  · exact absurd hid (hne u hu b hmem')
  · exact absurd hid.symm (hne v hv a hmem)
  · exact iff_of_false (Nat.not_lt.2 (a.le_position_shift _))
      (Nat.not_lt.2 (b.le_position_shift _))

/-- The first graph is a part of both. -/
theorem left_part : Index.Part (fun v => v.position < g.nodes.length) 0 0 g.index
    (g.beside h).index where
  vertices := by
    refine (congrArg _ (vertices_beside g h)).trans ?_
    rw [filter_append_eq_left]
    · exact (List.map_id' _).symm
    · exact fun v hv => decide_eq_true (position_lt hv)
    · intro v' hv'
      obtain ⟨v, -, rfl⟩ := List.mem_map.1 hv'
      exact decide_eq_false (Nat.not_lt.2 (v.le_position_shift _))
  wires := by
    rw [ha.wires, filter_append_eq_left]
    · exact (List.map_id' _).symm
    · exact fun w hw => decide_eq_true (position_lt (g.index_sound.target_mem_vertices hw))
    · intro w' hw'
      obtain ⟨w, -, rfl⟩ := List.mem_map.1 hw'
      exact decide_eq_false (Nat.not_lt.2 (w.target.le_position_shift _))
  closed w hw := decide_eq_decide.2 (ha.source_lt_iff hw)
  apart u hu v hv hid := decide_eq_decide.2 (ha.lt_iff_of_id_eq hu hv hid)

/-- The second graph is a part of both. -/
theorem right_part : Index.Part (fun v => g.nodes.length ≤ v.position) g.nodes.length
    g.edges.length h.index (g.beside h).index where
  vertices := by
    refine (congrArg _ (vertices_beside g h)).trans (filter_append_eq_right ?_ ?_)
    · exact fun v hv => decide_eq_false (Nat.not_le.2 (position_lt hv))
    · intro v' hv'
      obtain ⟨v, -, rfl⟩ := List.mem_map.1 hv'
      exact decide_eq_true (v.le_position_shift _)
  wires := by
    rw [ha.wires, filter_append_eq_right]
    · exact fun w hw =>
        decide_eq_false (Nat.not_le.2 (position_lt (g.index_sound.target_mem_vertices hw)))
    · intro w' hw'
      obtain ⟨w, -, rfl⟩ := List.mem_map.1 hw'
      exact decide_eq_true (w.target.le_position_shift _)
  closed w hw := decide_eq_decide.2 (by rw [← Nat.not_lt, ← Nat.not_lt, ha.source_lt_iff hw])
  apart u hu v hv hid := decide_eq_decide.2
    (by rw [← Nat.not_lt, ← Nat.not_lt, ha.lt_iff_of_id_eq hu hv hid])

/-- The owners of the ids of two graphs one behind the other. -/
theorem owners : (g.beside h).index.owners =
    g.index.owners ++ h.index.owners.map (Vertex.shift g.nodes.length) := by
  have hvertices : (g.beside h).index.vertices = g.index.vertices ++
      h.index.vertices.map (Vertex.shift g.nodes.length) := vertices_beside g h
  rw [Index.owners, hvertices, List.filter_append, List.filter_map]
  refine congrArg₂ _ (List.filter_congr fun v hv => ?_)
    (congrArg _ (List.filter_congr fun v hv => ?_))
  · exact congrArg not (ha.left_part.isShadowed_shift hv)
  · exact congrArg not (ha.right_part.isShadowed_shift hv)

end Apart

end Graph

end CircuitGraph
