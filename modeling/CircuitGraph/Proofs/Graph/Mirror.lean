import CircuitGraph.Proofs.Graph.Index

/-!
# Mirrors of an index

Placing vertices one after the other takes notice of little: which vertices there are, which of
them wires join, and how the ids compare. `Index.Mirror keep φ index index'` says that in this
respect `index'` shows the kept vertices of `index`, as their images under `φ`. What is wired to a
kept vertex is kept, so a kept vertex has in the mirror whatever it waits for.
-/

namespace CircuitGraph

/-- An index whose vertices and wires are images of those among the kept vertices of another
index. -/
structure Index.Mirror (keep : Vertex → Bool) (φ : Vertex → Vertex) (index index' : Index) :
    Prop where
  /-- The vertices are the images of those that are kept, in order. -/
  vertices : index'.vertices = (index.vertices.filter keep).map φ
  /-- The wires join the images of what the wires into kept vertices join, in order. -/
  ends : index'.wires.map (fun w => (w.source, w.target)) =
    (index.wires.filter fun w => keep w.target).map fun w => (φ w.source, φ w.target)
  /-- What is wired to a kept vertex is kept. -/
  closed : ∀ w ∈ index.wires, keep w.target = true → keep w.source = true
  /-- Images of kept vertices stand at different positions when the vertices do. -/
  position_eq_iff : ∀ u ∈ index.vertices, ∀ v ∈ index.vertices, keep u = true → keep v = true →
    ((φ u).position = (φ v).position ↔ u.position = v.position)
  /-- No id is shared. -/
  nodup_ids : (index.vertices.map Vertex.id).Nodup
  /-- The ids of the images have the order of those of the vertices. -/
  id_lt_iff : ∀ u ∈ index.vertices, ∀ v ∈ index.vertices, (φ u).id < (φ v).id ↔ u.id < v.id

namespace Index.Mirror

variable {keep : Vertex → Bool} {φ : Vertex → Vertex} {index index' : Index}
  (h : index.Mirror keep φ index')

include h

/-- The images of vertices with different ids have different ids. -/
theorem id_eq_iff {u v : Vertex} (hu : u ∈ index.vertices) (hv : v ∈ index.vertices) :
    (φ u).id = (φ v).id ↔ u.id = v.id := by
  -- two ids are the same when neither is less than the other
  have heq : ∀ a b : String, a = b ↔ ¬ a < b ∧ ¬ b < a := fun a b =>
    ⟨fun hab => by rw [hab]; exact ⟨String.lt_irrefl b, String.lt_irrefl b⟩,
      fun hab => String.le_antisymm (String.not_lt.1 hab.2) (String.not_lt.1 hab.1)⟩
  rw [heq, heq, h.id_lt_iff u hu v hv, h.id_lt_iff v hv u hu]

/-- No id is shared among the images. -/
theorem nodup_ids' : (index'.vertices.map Vertex.id).Nodup := by
  rw [h.vertices, List.map_map]
  have hkept : ((index.vertices.filter keep).map Vertex.id).Nodup :=
    h.nodup_ids.sublist (List.filter_sublist.map _)
  refine (hkept.of_map _).map_on fun u hu v hv hid => ?_
  have hu := (List.mem_filter.1 hu).1
  have hv := (List.mem_filter.1 hv).1
  exact List.inj_on_of_nodup_map h.nodup_ids hu hv ((h.id_eq_iff hu hv).1 hid)

/-- As many wires arrive at the image of a kept vertex as at the vertex. -/
theorem length_incoming (hi : index.Sound) {v : Vertex} (hv : v ∈ index.vertices)
    (hkeep : keep v = true) :
    (index'.incoming (φ v).position).length = (index.incoming v.position).length := by
  have hfilter := congrArg (fun l => (l.filter fun k => k.2.position == (φ v).position).length)
    h.ends
  simp only [List.filter_map, List.length_map, List.filter_filter, Function.comp_def] at hfilter
  rw [Index.incoming, hfilter, Index.incoming]
  refine congrArg _ (List.filter_congr fun w hw => ?_)
  -- a wire that ends at the position of the vertex ends at the vertex, which is kept
  have htarget := hi.target_mem_vertices hw
  rw [Bool.eq_iff_iff, Bool.and_eq_true, beq_iff_eq, beq_iff_eq]
  constructor
  · rintro ⟨hposition, hkeepTarget⟩
    exact (h.position_eq_iff _ htarget _ hv hkeepTarget hkeep).1 hposition
  · intro hposition
    rw [hi.eq_of_position_eq htarget hv hposition]
    exact ⟨rfl, hkeep⟩

/-- The wires that leave the image of a kept vertex are those that lead to kept vertices. -/
theorem map_outgoing (hi : index.Sound) {v : Vertex} (hv : v ∈ index.vertices)
    (hkeep : keep v = true) :
    ((index'.outgoing (φ v).position).map fun w => w.target) =
      ((index.outgoing v.position).filter fun w => keep w.target).map fun w => φ w.target := by
  have hfilter := congrArg
    (fun l => (l.filter fun k => k.1.position == (φ v).position).map fun k => k.2) h.ends
  simp only [List.filter_map, List.map_map, List.filter_filter, Function.comp_def] at hfilter
  rw [Index.outgoing, hfilter, Index.outgoing, List.filter_filter]
  refine congrArg _ (List.filter_congr fun w hw => ?_)
  rw [Bool.eq_iff_iff, Bool.and_eq_true, Bool.and_eq_true, beq_iff_eq, beq_iff_eq, and_comm]
  refine and_congr_right fun hkeepTarget => ?_
  exact h.position_eq_iff _ (hi.source_mem_vertices hw) _ hv (h.closed w hw hkeepTarget) hkeep

end Index.Mirror

end CircuitGraph
