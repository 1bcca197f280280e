import CircuitGraph.Proofs.Graph.Mirror
import CircuitGraph.Proofs.Graph.Path

/-!
# Images of an index

Leaving out vertices that feed nothing, or giving the nodes other ids and labels, changes an index
in a way that the later stages hardly notice. `Index.Image keep φ index index'` says how the two are
related: the vertices of `index'` are, in order, the images under `φ` of the vertices that are kept,
and its wires are those into kept vertices. A vertex that is wired to a kept one is kept, so nothing
that arrives at a kept vertex is lost. `φ` may change the position of a vertex and the label of its
node, and it may change ids as long as their order stays the same.
-/

namespace CircuitGraph

/-! ## Nodes up to their labels -/

namespace NodeKind

/-- The kind with another label, where it has one. -/
def withLabel (label : String) : NodeKind → NodeKind
  | input visibility _ => input visibility label
  | output type _ => output type label
  | kind => kind

/-- The kind without the label of an input or an output. -/
def unlabelled (kind : NodeKind) : NodeKind := kind.withLabel ""

/-- A label that is put in does not show without labels. -/
@[simp] theorem unlabelled_withLabel (kind : NodeKind) (label : String) :
    (kind.withLabel label).unlabelled = kind.unlabelled := by
  cases kind <;> rfl

/-- Kinds that are the same without labels are the same up to the label. -/
theorem exists_eq_withLabel {kind kind' : NodeKind} (h : kind'.unlabelled = kind.unlabelled) :
    ∃ label, kind' = kind.withLabel label := by
  cases kind' with
  | input visibility label =>
    cases kind with
    | input _ _ => cases h; exact ⟨label, rfl⟩
    | _ => cases h
  | output type label =>
    cases kind with
    | output _ _ => cases h; exact ⟨label, rfl⟩
    | _ => cases h
  | operation operator =>
    cases kind with
    | operation _ => exact ⟨"", h⟩
    | _ => cases h
  | gadget gadget params =>
    cases kind with
    | gadget _ _ => exact ⟨"", h⟩
    | _ => cases h

end NodeKind

namespace Node

variable {node other : Node}

/-- The label is not asked for where only the kind matters. -/
theorem eq_of_unlabelled {α : Type} (f : NodeKind → α) (hf : ∀ kind, f kind.unlabelled = f kind)
    (h : node.kind.unlabelled = other.kind.unlabelled) : f node.kind = f other.kind := by
  rw [← hf, h, hf]

variable (h : node.kind.unlabelled = other.kind.unlabelled)

include h

/-- The label does not decide about the ports. -/
theorem ports_eq_of_unlabelled : node.ports = other.ports :=
  eq_of_unlabelled (fun kind => ports ⟨"", kind⟩) (fun kind => by cases kind <;> rfl) h

/-- The label does not decide about being an output. -/
theorem isOutput_eq_of_unlabelled : node.isOutput = other.isOutput :=
  eq_of_unlabelled (fun kind => isOutput ⟨"", kind⟩) (fun kind => by cases kind <;> rfl) h

/-- The label does not decide about being a gadget. -/
theorem kind_eq_gadget_of_unlabelled {gadget : Gadget} {params : Params}
    (hkind : node.kind = .gadget gadget params) : other.kind = .gadget gadget params := by
  rw [hkind] at h
  cases hother : other.kind with
  | gadget g p =>
    rw [hother] at h
    exact h.symm
  | _ =>
    rw [hother] at h
    cases h

end Node

/-! ## Images -/

/-- An index whose vertices are the images of the kept ones of another index. -/
structure Index.Image (keep : Vertex → Bool) (φ : Vertex → Vertex) (index index' : Index) :
    Prop where
  /-- The vertices are the images of those that are kept, in order. -/
  vertices : index'.vertices = (index.vertices.filter keep).map φ
  /-- The wires are those into kept vertices, in order, between the images and at the same ports. -/
  wires : index'.wires.map (fun w => (w.edge.id, w.edge.targetPort, w.source, w.target)) =
    (index.wires.filter fun w => keep w.target).map fun w =>
      (w.edge.id, w.edge.targetPort, φ w.source, φ w.target)
  /-- Every edge is well formed. -/
  links : ∀ link ∈ index'.links, link.fault? = none
  /-- What is wired to a kept vertex is kept. -/
  closed : ∀ w ∈ index.wires, keep w.target = true → keep w.source = true
  /-- Outputs are kept. -/
  outputs : ∀ v ∈ index.vertices, v.node.isOutput = true → keep v = true
  /-- Images stand at different positions when the vertices do. -/
  position_eq_iff : ∀ u v, (φ u).position = (φ v).position ↔ u.position = v.position
  /-- No id is shared. -/
  nodup_ids : (index.vertices.map Vertex.id).Nodup
  /-- The ids of the images have the order of those of the vertices. -/
  id_lt_iff : ∀ u ∈ index.vertices, ∀ v ∈ index.vertices, (φ u).id < (φ v).id ↔ u.id < v.id
  /-- A vertex and its image differ in ids and labels only. -/
  unlabelled_eq : ∀ v, (φ v).node.kind.unlabelled = v.node.kind.unlabelled

namespace Index.Image

variable {keep : Vertex → Bool} {φ : Vertex → Vertex} {index index' : Index}

variable (h : index.Image keep φ index')

include h

/-- A vertex of the image comes from a kept vertex. -/
theorem mem_vertices {v' : Vertex} :
    v' ∈ index'.vertices ↔ ∃ v ∈ index.vertices, keep v = true ∧ φ v = v' := by
  rw [h.vertices, List.mem_map]
  simp only [List.mem_filter, and_assoc]

/-- The image mirrors the kept vertices. -/
theorem mirror : index.Mirror keep φ index' where
  vertices := h.vertices
  ends := by
    have hends := congrArg (fun l => l.map fun k => k.2.2) h.wires
    simpa only [List.map_map, Function.comp_def] using hends
  closed := h.closed
  position_eq_iff u _ v _ _ _ := h.position_eq_iff u v
  nodup_ids := h.nodup_ids
  id_lt_iff := h.id_lt_iff

/-- No id is shared in the image. -/
theorem nodup_ids' : (index'.vertices.map Vertex.id).Nodup := h.mirror.nodup_ids'

/-- A wire of the image comes from a wire into a kept vertex. -/
theorem exists_wire {w' : Wire} (hw' : w' ∈ index'.wires) :
    ∃ w ∈ index.wires, keep w.target = true ∧ w'.source = φ w.source ∧
      w'.target = φ w.target := by
  have hmem := List.mem_map_of_mem
    (f := fun w : Wire => (w.edge.id, w.edge.targetPort, w.source, w.target)) hw'
  rw [h.wires] at hmem
  obtain ⟨w, hw, heq⟩ := List.mem_map.1 hmem
  obtain ⟨hwire, hkeep⟩ := List.mem_filter.1 hw
  simp only [Prod.mk.injEq] at heq
  exact ⟨w, hwire, hkeep, heq.2.2.1.symm, heq.2.2.2.symm⟩

/-- A wire into a kept vertex has an image. -/
theorem exists_wire' {w : Wire} (hw : w ∈ index.wires) (hkeep : keep w.target = true) :
    ∃ w' ∈ index'.wires, w'.source = φ w.source ∧ w'.target = φ w.target := by
  have hmem := List.mem_map_of_mem
    (f := fun w : Wire => (w.edge.id, w.edge.targetPort, φ w.source, φ w.target))
    (List.mem_filter.2 ⟨hw, hkeep⟩ : w ∈ index.wires.filter fun w => keep w.target)
  rw [← h.wires] at hmem
  obtain ⟨w', hw', heq⟩ := List.mem_map.1 hmem
  simp only [Prod.mk.injEq] at heq
  exact ⟨w', hw', heq.2.2.1, heq.2.2.2⟩

/-- The same wires arrive at the image of a kept vertex. -/
theorem map_incoming (hi : index.Sound) {v : Vertex} (hv : v ∈ index.vertices)
    (hkeep : keep v = true) :
    ((index'.incoming (φ v).position).map fun w => (w.edge.id, w.edge.targetPort, w.source)) =
      (index.incoming v.position).map fun w => (w.edge.id, w.edge.targetPort, φ w.source) := by
  have hfilter := congrArg
    (fun l => (l.filter fun k => k.2.2.2.position == (φ v).position).map fun k =>
      (k.1, k.2.1, k.2.2.1)) h.wires
  simp only [List.filter_map, List.map_map, List.filter_filter, Function.comp_def] at hfilter
  rw [Index.incoming, hfilter, Index.incoming]
  refine congrArg _ (List.filter_congr fun w hw => ?_)
  -- a wire that ends at the position of the vertex ends at the vertex, which is kept
  rw [Bool.eq_iff_iff, Bool.and_eq_true, beq_iff_eq, beq_iff_eq, h.position_eq_iff]
  refine ⟨And.left, fun hposition => ⟨hposition, ?_⟩⟩
  rwa [hi.eq_of_position_eq (hi.target_mem_vertices hw) hv hposition]

/-- The outputs of the image are the images of the outputs. -/
theorem mem_outputs {v : Vertex} (hv : v ∈ index.vertices) :
    φ v ∈ index'.outputs ↔ v ∈ index.outputs := by
  have houtput : (φ v).node.isOutput = v.node.isOutput :=
    Node.isOutput_eq_of_unlabelled (h.unlabelled_eq v)
  rw [Index.outputs, Index.outputs, owners_eq_vertices h.nodup_ids,
    owners_eq_vertices h.nodup_ids', List.mem_filter, List.mem_filter, houtput, h.mem_vertices]
  constructor
  · rintro ⟨-, hv'⟩
    exact ⟨hv, hv'⟩
  · rintro ⟨-, hv'⟩
    exact ⟨⟨v, hv, h.outputs v hv hv', rfl⟩, hv'⟩

/-- What feeds an output is kept, and its image feeds an output. -/
theorem mem_useful_image (hi : index.Sound) (hi' : index'.Sound) {v : Vertex}
    (hv : v ∈ index.vertices) (huseful : v.position ∈ index.useful) :
    keep v = true ∧ (φ v).position ∈ index'.useful := by
  obtain ⟨o, ho, hpath⟩ := hi.mem_useful_iff.1 huseful
  have hoVertex := mem_vertices_of_mem_outputs ho
  -- by induction along the path, beginning at the output
  have hall : ∀ p, Relation.ReflTransGen index.Leads p o.position → ∀ u ∈ index.vertices,
      u.position = p → keep u = true ∧ (φ u).position ∈ index'.useful := by
    intro p hp
    induction hp using Relation.ReflTransGen.head_induction_on with
    | refl =>
      intro u hu hposition
      rw [hi.eq_of_position_eq hu hoVertex hposition]
      exact ⟨h.outputs o hoVertex (List.mem_filter.1 ho).2,
        position_mem_useful_of_mem_outputs ((h.mem_outputs hoVertex).2 ho)⟩
    | head hstep _ ih =>
      intro u hu hposition
      obtain ⟨w, hw, hsource, htarget⟩ := hstep
      have hsourceMem := hi.source_mem_vertices hw
      obtain ⟨hkeep, hfeeds⟩ := ih w.target (hi.target_mem_vertices hw) htarget
      obtain ⟨w', hw', hs', ht'⟩ := h.exists_wire' hw hkeep
      rw [← hi.eq_of_position_eq hsourceMem hu (hsource.trans hposition.symm)]
      refine ⟨h.closed w hw hkeep, ?_⟩
      rw [← hs']
      exact hi'.source_mem_useful hw' (by rwa [ht'])
  exact hall _ hpath v hv rfl

/-- A vertex feeds an output when its image does. -/
theorem mem_useful_iff (hi : index.Sound) (hi' : index'.Sound) {v : Vertex}
    (hv : v ∈ index.vertices) :
    (φ v).position ∈ index'.useful ↔ v.position ∈ index.useful := by
  refine ⟨fun huseful => ?_, fun huseful => (h.mem_useful_image hi hi' hv huseful).2⟩
  obtain ⟨o', ho', hpath⟩ := hi'.mem_useful_iff.1 huseful
  obtain ⟨o, ho, -, rfl⟩ := h.mem_vertices.1 (mem_vertices_of_mem_outputs ho')
  have hall : ∀ p, Relation.ReflTransGen index'.Leads p (φ o).position → ∀ u ∈ index.vertices,
      (φ u).position = p → u.position ∈ index.useful := by
    intro p hp
    induction hp using Relation.ReflTransGen.head_induction_on with
    | refl =>
      intro u hu hposition
      rw [hi.eq_of_position_eq hu ho ((h.position_eq_iff u o).1 hposition)]
      exact position_mem_useful_of_mem_outputs ((h.mem_outputs ho).1 ho')
    | head hstep _ ih =>
      intro u hu hposition
      obtain ⟨w', hw', hsource, htarget⟩ := hstep
      obtain ⟨w, hw, -, hs, ht⟩ := h.exists_wire hw'
      have hsourceMem := hi.source_mem_vertices hw
      have hfeeds := ih w.target (hi.target_mem_vertices hw) (by rw [← ht, htarget])
      have hu' : w.source = u := by
        refine hi.eq_of_position_eq hsourceMem hu ((h.position_eq_iff _ _).1 ?_)
        rw [← hs, hsource, hposition]
      rw [← hu']
      exact hi.source_mem_useful hw hfeeds
  exact hall _ hpath v hv rfl

end Index.Image

/-! ## Images of graphs -/

/-- An edge has no fault when its ends own the ids that it names, it leaves at an output, and it
arrives at a port. -/
theorem linkEnds_eq_ok_iff {vertices : List Vertex} {edge : Edge} {source target : Vertex} :
    linkEnds vertices edge = .ok (source, target) ↔
      owner? vertices edge.source = some source ∧ owner? vertices edge.target = some target ∧
        source.node.hasOutputPort = true ∧ edge.sourcePort = outputPort ∧
        target.node.ports.contains edge.targetPort = true := by
  unfold linkEnds
  cases owner? vertices edge.source with
  | none => simp
  | some s =>
    cases owner? vertices edge.target with
    | none => simp
    | some t =>
      dsimp only
      split_ifs with hport hports
      · simp only [Bool.or_eq_true, Bool.not_eq_true', bne_iff_ne] at hport
        simp only [Option.some.injEq, false_iff]
        rintro ⟨rfl, rfl, hout, hname, -⟩
        rcases hport with hport | hport
        · exact Bool.noConfusion (hport.symm.trans hout)
        · exact hport hname
      · simp only [Option.some.injEq, false_iff]
        rintro ⟨rfl, rfl, -, -, hcontains⟩
        simp [hcontains] at hports
      · simp only [Bool.or_eq_true, Bool.not_eq_true', bne_iff_ne, not_or, Bool.not_eq_false,
          not_not] at hport hports
        simp only [Except.ok.injEq, Prod.mk.injEq, Option.some.injEq]
        constructor
        · rintro ⟨rfl, rfl⟩
          exact ⟨rfl, rfl, hport.1, hport.2, hports⟩
        · rintro ⟨rfl, rfl, -⟩
          exact ⟨rfl, rfl⟩

/-- An edge between images has no fault when it is like an edge without fault. -/
theorem linkEnds_image {vertices vertices' : List Vertex} {φ : Vertex → Vertex} {e e' : Edge}
    {source target : Vertex} (h : linkEnds vertices e = .ok (source, target))
    (hids : (vertices'.map Vertex.id).Nodup)
    (hunlabelled : ∀ v, (φ v).node.kind.unlabelled = v.node.kind.unlabelled)
    (hsource : φ source ∈ vertices') (htarget : φ target ∈ vertices')
    (hsourceId : e'.source = (φ source).id) (htargetId : e'.target = (φ target).id)
    (hsourcePort : e'.sourcePort = e.sourcePort) (htargetPort : e'.targetPort = e.targetPort) :
    linkEnds vertices' e' = .ok (φ source, φ target) := by
  obtain ⟨-, -, hout, hname, hcontains⟩ := linkEnds_eq_ok_iff.1 h
  refine linkEnds_eq_ok_iff.2 ⟨?_, ?_, ?_, hsourcePort.trans hname, ?_⟩
  · exact (owner?_eq_some_iff hids).2 ⟨hsource, hsourceId.symm⟩
  · exact (owner?_eq_some_iff hids).2 ⟨htarget, htargetId.symm⟩
  · rwa [Node.hasOutputPort, Node.isOutput_eq_of_unlabelled (hunlabelled source)]
  · rwa [Node.ports_eq_of_unlabelled (hunlabelled target), htargetPort]

namespace Graph

/-- The wires of a graph are its edges with their ends, without the edges that have a fault. -/
theorem map_wires (g : Graph) :
    g.index.wires.map (fun w => (w.edge, w.source, w.target)) =
      g.edges.filterMap fun e => (linkEnds g.vertices e).toOption.map (Prod.mk e) := by
  have hlink : ∀ p : Edge × Nat,
      (Link.wire? ⟨p.2, p.1, linkEnds g.vertices p.1⟩).map
          (fun w => (w.edge, w.source, w.target)) =
        (linkEnds g.vertices p.1).toOption.map (Prod.mk p.1) := by
    rintro ⟨e, i⟩
    cases hends : linkEnds g.vertices e <;> simp [Link.wire?, Except.toOption]
  calc g.index.wires.map (fun w => (w.edge, w.source, w.target))
      = g.edges.zipIdx.filterMap fun p =>
          (linkEnds g.vertices p.1).toOption.map (Prod.mk p.1) := by
        simp only [index, List.map_filterMap, List.filterMap_map]
        exact congrArg (fun f => List.filterMap f _) (funext hlink)
    _ = (g.edges.zipIdx.map Prod.fst).filterMap fun e =>
          (linkEnds g.vertices e).toOption.map (Prod.mk e) := by
        rw [List.filterMap_map]
        rfl
    _ = _ := by rw [List.zipIdx_map_fst]

variable {g g' : Graph} {φ : Vertex → Vertex} {keepEdge : Edge → Bool} (keep : Vertex → Bool)
  (moved : Edge → Edge) (hedges : g'.edges = (g.edges.filter keepEdge).map moved)
  (hends : ∀ e ∈ g.edges, ∃ source target, linkEnds g.vertices e = .ok (source, target) ∧
    keepEdge e = keep target ∧
    (keep target = true → linkEnds g'.vertices (moved e) = .ok (φ source, φ target)))

include hedges hends

/-- The wires of the image of a graph are the moved edges between the images of their ends. -/
theorem map_wires_image :
    g'.index.wires.map (fun w => (w.edge, w.source, w.target)) =
      (g.index.wires.filter fun w => keep w.target).map fun w =>
        (moved w.edge, φ w.source, φ w.target) := by
  have hsplit : (g.index.wires.filter fun w => keep w.target).map (fun w =>
        (moved w.edge, φ w.source, φ w.target)) =
      ((g.index.wires.map fun w => (w.edge, w.source, w.target)).filter fun k =>
        keep k.2.2).map fun k => (moved k.1, φ k.2.1, φ k.2.2) := by
    rw [List.filter_map, List.map_map]
    rfl
  rw [hsplit, map_wires, map_wires, hedges, List.filterMap_map, List.filterMap_filter,
    List.filter_filterMap, List.map_filterMap]
  refine List.filterMap_congr fun e he => ?_
  obtain ⟨source, target, hlink, hkeepEdge, hlink'⟩ := hends e he
  cases hkeep : keep target with
  | false => simp [hlink, hkeepEdge, hkeep, Except.toOption]
  | true => simp [hlink, hlink' hkeep, hkeepEdge, hkeep, Except.toOption]

/-- No edge of the image has a fault. -/
theorem fault?_eq_none_image : ∀ link ∈ g'.index.links, link.fault? = none := by
  intro link hlink
  obtain ⟨⟨e', i⟩, hmem, rfl⟩ := List.mem_map.1 hlink
  have he' : e' ∈ g'.edges := by
    have hfst := List.mem_map_of_mem (f := Prod.fst) hmem
    rwa [List.zipIdx_map_fst] at hfst
  rw [hedges] at he'
  obtain ⟨e, he, rfl⟩ := List.mem_map.1 he'
  obtain ⟨hmem, hkeepEdge⟩ := List.mem_filter.1 he
  obtain ⟨source, target, -, hkeep, hlink'⟩ := hends e hmem
  show Link.fault? ⟨i, moved e, linkEnds g'.vertices (moved e)⟩ = none
  rw [hlink' (hkeep.symm.trans hkeepEdge)]
  rfl

end Graph

end CircuitGraph
