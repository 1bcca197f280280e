import CircuitGraph.Proofs.Graph.Image

/-!
# What an index says of nodes and edges

An index holds the vertices, a link for each edge with its ends or its fault, and the wires that
leave and reach each position. What each of them is follows from the nodes and edges of the graph
alone, whatever ids are shared and wherever edges lead.

The vertices are settled by the nodes (`Index.Locates`). What is said of the edges
(`Index.Tabulates`) is carried on by one edge at a time: the index of a graph with one more edge is
made of the index of the graph without it (`Graph.index_addEdge`), and everything still fits
together then (`Index.Tabulates.addEdge`).
-/

namespace CircuitGraph

namespace Graph

/-! ## Owners of ids -/

/-- The node at a position is the first one that has an id. -/
structure Owns (g : Graph) (p : Nat) (id : String) : Prop where
  /-- The node has the id. -/
  id_eq : ∃ node, g.nodes[p]? = some node ∧ node.id = id
  /-- No node before the position has the id. -/
  first : ∀ q < p, ∀ other, g.nodes[q]? = some other → other.id ≠ id

/-- An edge is well formed and joins the nodes at two positions. -/
structure Joins (g : Graph) (e : Edge) (a b : Nat) : Prop where
  /-- The edge comes from the first node that has its source as id. -/
  source : g.Owns a e.source
  /-- The edge goes to the first node that has its target as id. -/
  target : g.Owns b e.target
  /-- The node that it comes from is no output. -/
  isOutput_eq : ∀ node, g.nodes[a]? = some node → node.isOutput = false
  /-- The edge leaves at the only port of a node. -/
  sourcePort_eq : e.sourcePort = outputPort
  /-- The edge arrives at a port of the node that it goes to. -/
  contains : ∀ node, g.nodes[b]? = some node → node.ports.contains e.targetPort = true

variable {g : Graph}

/-- The vertex at a position is the node there. -/
theorem getElem?_vertices (g : Graph) (p : Nat) :
    g.vertices[p]? = g.nodes[p]?.map (Vertex.mk p) := by
  simp [vertices, Function.comp_def]

/-- The owner of an id is the first node that has it. -/
theorem owns_of_owner? {id : String} {v : Vertex} (h : owner? g.vertices id = some v) :
    g.nodes[v.position]? = some v.node ∧ g.Owns v.position id := by
  obtain ⟨hmem, hid⟩ := owner?_eq_some h
  have hnode := mem_vertices_iff.1 hmem
  refine ⟨hnode, ⟨v.node, hnode, hid⟩, fun q hq other hother => ?_⟩
  obtain ⟨-, i, hi, hv, hbefore⟩ := List.find?_eq_some_iff_getElem.1 h
  -- the vertex stands at its position, so the other one stands before it
  have hposition : i = v.position := by
    have hsome := (g.getElem?_vertices i).symm.trans (List.getElem?_eq_some_iff.2 ⟨hi, hv⟩)
    obtain ⟨node, -, rfl⟩ := Option.map_eq_some_iff.1 hsome
    rfl
  have hqi : q < i := hposition ▸ hq
  have hvertex : g.vertices[q]? = some ⟨q, other⟩ := by
    rw [getElem?_vertices, hother]
    rfl
  obtain ⟨_, hvertex⟩ := List.getElem?_eq_some_iff.1 hvertex
  simpa [hvertex, Vertex.id] using hbefore q hqi

/-- One position at most owns an id. -/
theorem Owns.unique {p q : Nat} {id : String} (hp : g.Owns p id) (hq : g.Owns q id) : p = q := by
  obtain ⟨node, hnode, hid⟩ := hp.id_eq
  obtain ⟨other, hother, hid'⟩ := hq.id_eq
  rcases Nat.lt_trichotomy p q with hlt | heq | hlt
  · exact absurd hid (hq.first p hlt node hnode)
  · exact heq
  · exact absurd hid' (hp.first q hlt other hother)

/-- The first node that has an id is the owner of the id. -/
theorem Owns.owner? {p : Nat} {id : String} (h : g.Owns p id) :
    ∃ node, g.nodes[p]? = some node ∧ owner? g.vertices id = some ⟨p, node⟩ := by
  obtain ⟨node, hnode, hid⟩ := h.id_eq
  cases hfind : CircuitGraph.owner? g.vertices id with
  | none =>
    have hmem : (⟨p, node⟩ : Vertex) ∈ g.vertices := mem_vertices_iff.2 hnode
    exact absurd hid (by simpa [Vertex.id] using List.find?_eq_none.1 hfind _ hmem)
  | some v =>
    obtain ⟨hv, howns⟩ := owns_of_owner? hfind
    obtain rfl := h.unique howns
    exact ⟨v.node, hv, rfl⟩

/-- An edge joins two positions when these are those of its ends. -/
theorem joins_iff {e : Edge} {a b : Nat} : g.Joins e a b ↔
    ∃ source target, linkEnds g.vertices e = .ok (source, target) ∧ source.position = a ∧
      target.position = b := by
  constructor
  · intro h
    obtain ⟨source, hsource, hsourceOwner⟩ := h.source.owner?
    obtain ⟨target, htarget, htargetOwner⟩ := h.target.owner?
    refine ⟨⟨a, source⟩, ⟨b, target⟩, linkEnds_eq_ok_iff.2 ⟨hsourceOwner, htargetOwner, ?_,
      h.sourcePort_eq, h.contains target htarget⟩, rfl, rfl⟩
    rw [Node.hasOutputPort, h.isOutput_eq source hsource]
    rfl
  · rintro ⟨source, target, hends, rfl, rfl⟩
    obtain ⟨hsource, htarget, hout, hport, hcontains⟩ := linkEnds_eq_ok_iff.1 hends
    obtain ⟨hsourceNode, hsourceOwns⟩ := owns_of_owner? hsource
    obtain ⟨htargetNode, htargetOwns⟩ := owns_of_owner? htarget
    refine ⟨hsourceOwns, htargetOwns, fun node hnode => ?_, hport, fun node hnode => ?_⟩
    · cases hsourceNode.symm.trans hnode
      exact Bool.eq_false_of_not_eq_true' hout
    · cases htargetNode.symm.trans hnode
      exact hcontains

/-- The owner of an id stands at the position that owns the id. -/
theorem owner?_vertices_eq_some_iff {id : String} {v : Vertex} :
    owner? g.vertices id = some v ↔ g.nodes[v.position]? = some v.node ∧ g.Owns v.position id := by
  refine ⟨owns_of_owner?, fun ⟨hnode, howns⟩ => ?_⟩
  obtain ⟨node, hnode', howner⟩ := howns.owner?
  obtain rfl : v.node = node := Option.some.inj (hnode.symm.trans hnode')
  exact howner

/-- An id has no owner when no node has it. -/
theorem owner?_vertices_eq_none_iff {id : String} :
    owner? g.vertices id = none ↔ ∀ node ∈ g.nodes, node.id ≠ id := by
  rw [owner?, List.find?_eq_none, ← map_node_vertices g, List.forall_mem_map]
  simp [Vertex.id]

/-- An id that is owned is the id of a node. -/
theorem not_forall_id_ne_of_owner? {id : String} {v : Vertex}
    (h : owner? g.vertices id = some v) : ¬ ∀ node ∈ g.nodes, node.id ≠ id := by
  rw [← owner?_vertices_eq_none_iff, h]
  exact Option.some_ne_none v

/-- What is said of the node that owns an id is said of the owner. -/
theorem exists_owner_iff {id : String} {v : Vertex} (h : owner? g.vertices id = some v)
    {P : Node → Prop} :
    (∃ p node, g.nodes[p]? = some node ∧ g.Owns p id ∧ P node) ↔ P v.node := by
  obtain ⟨hnode, howns⟩ := owns_of_owner? h
  constructor
  · rintro ⟨p, node, hp, hpowns, hP⟩
    obtain rfl := hpowns.unique howns
    obtain rfl : node = v.node := Option.some.inj (hp.symm.trans hnode)
    exact hP
  · exact fun hP => ⟨v.position, v.node, hnode, howns, hP⟩

end Graph

/-! ## Faults of edges -/

/-- The place of a fault in the order in which the conditions on an edge are examined. -/
def LinkFault.rank : LinkFault → Nat
  | .missingSource => 0
  | .missingTarget => 1
  | .unknownSourcePort => 2
  | .unknownTargetPort => 3

namespace Graph

/-- A condition on an edge fails, whatever the other conditions do. -/
def Suffers (g : Graph) (e : Edge) : LinkFault → Prop
  | .missingSource => ∀ node ∈ g.nodes, node.id ≠ e.source
  | .missingTarget => ∀ node ∈ g.nodes, node.id ≠ e.target
  | .unknownSourcePort => ∃ p node, g.nodes[p]? = some node ∧ g.Owns p e.source ∧
      (node.isOutput = true ∨ e.sourcePort ≠ outputPort)
  | .unknownTargetPort => ∃ p node, g.nodes[p]? = some node ∧ g.Owns p e.target ∧
      node.ports.contains e.targetPort = false

/-- Of the faults that an edge suffers, one comes first. -/
structure FirstFault (g : Graph) (e : Edge) (fault : LinkFault) : Prop where
  /-- The edge suffers the fault. -/
  suffers : g.Suffers e fault
  /-- The edge suffers no fault that comes before. -/
  not_before : ∀ other, other.rank < fault.rank → ¬ g.Suffers e other

variable {g : Graph} {e : Edge}

/-- One fault at most comes first. -/
theorem FirstFault.unique {fault fault' : LinkFault} (h : g.FirstFault e fault)
    (h' : g.FirstFault e fault') : fault = fault' := by
  rcases Nat.lt_trichotomy fault.rank fault'.rank with hlt | heq | hlt
  · exact absurd h.suffers (h'.not_before fault hlt)
  · cases fault <;> cases fault' <;> simp [LinkFault.rank] at heq ⊢
  · exact absurd h'.suffers (h.not_before fault' hlt)

/-- The source is not missing when its id has an owner. -/
theorem not_suffers_missingSource {source : Vertex} (h : owner? g.vertices e.source = some source) :
    ¬ g.Suffers e .missingSource := not_forall_id_ne_of_owner? h

/-- The target is not missing when its id has an owner. -/
theorem not_suffers_missingTarget {target : Vertex} (h : owner? g.vertices e.target = some target) :
    ¬ g.Suffers e .missingTarget := not_forall_id_ne_of_owner? h

/-- The port of a source is unknown when the source is an output or the port is another one. -/
theorem suffers_unknownSourcePort_iff {source : Vertex}
    (h : owner? g.vertices e.source = some source) : g.Suffers e .unknownSourcePort ↔
      (!source.node.hasOutputPort || e.sourcePort != outputPort) = true := by
  refine (exists_owner_iff h).trans ?_
  simp [Node.hasOutputPort]

/-- The port of a target is unknown when it is not among the ports of the target. -/
theorem suffers_unknownTargetPort_iff {target : Vertex}
    (h : owner? g.vertices e.target = some target) : g.Suffers e .unknownTargetPort ↔
      (!target.node.ports.contains e.targetPort) = true := by
  refine (exists_owner_iff h).trans ?_
  rw [Bool.not_eq_true']

/-- Looking up the ends of an edge finds the first fault. -/
theorem firstFault_of_linkEnds {fault : LinkFault} (h : linkEnds g.vertices e = .error fault) :
    g.FirstFault e fault := by
  unfold linkEnds at h
  split at h
  case h_1 hsource =>
    cases h
    exact ⟨owner?_vertices_eq_none_iff.1 hsource, fun other hlt => absurd hlt (Nat.not_lt_zero _)⟩
  case h_2 source hsource =>
    have hnotSource := not_suffers_missingSource hsource
    split at h
    case h_1 htarget =>
      cases h
      refine ⟨owner?_vertices_eq_none_iff.1 htarget, fun other hlt => ?_⟩
      cases other with
      | missingSource => exact hnotSource
      | _ => simp [LinkFault.rank] at hlt
    case h_2 target htarget =>
      have hnotTarget := not_suffers_missingTarget htarget
      split at h
      case isTrue hport =>
        cases h
        refine ⟨(suffers_unknownSourcePort_iff hsource).2 hport, fun other hlt => ?_⟩
        cases other with
        | missingSource => exact hnotSource
        | missingTarget => exact hnotTarget
        | _ => simp [LinkFault.rank] at hlt
      case isFalse hport =>
        split at h
        case isTrue hports =>
          cases h
          refine ⟨(suffers_unknownTargetPort_iff htarget).2 hports, fun other hlt => ?_⟩
          cases other with
          | missingSource => exact hnotSource
          | missingTarget => exact hnotTarget
          | unknownSourcePort =>
            exact fun hs => hport ((suffers_unknownSourcePort_iff hsource).1 hs)
          | unknownTargetPort => exact absurd hlt (Nat.lt_irrefl _)
        case isFalse => cases h

/-- An edge that joins two positions suffers no fault. -/
theorem Joins.not_suffers {a b : Nat} (h : g.Joins e a b) (fault : LinkFault) :
    ¬ g.Suffers e fault := by
  obtain ⟨source, hsource, hsourceOwner⟩ := h.source.owner?
  obtain ⟨target, htarget, htargetOwner⟩ := h.target.owner?
  cases fault with
  | missingSource => exact not_suffers_missingSource hsourceOwner
  | missingTarget => exact not_suffers_missingTarget htargetOwner
  | unknownSourcePort =>
    rw [suffers_unknownSourcePort_iff hsourceOwner]
    simp [Node.hasOutputPort, h.isOutput_eq source hsource, h.sourcePort_eq]
  | unknownTargetPort =>
    rw [suffers_unknownTargetPort_iff htargetOwner]
    simp [h.contains target htarget]

/-- The ends of an edge are not found because of a fault when that fault comes first. -/
theorem linkEnds_eq_error_iff {fault : LinkFault} :
    linkEnds g.vertices e = .error fault ↔ g.FirstFault e fault := by
  refine ⟨firstFault_of_linkEnds, fun h => ?_⟩
  cases hends : linkEnds g.vertices e with
  | error other => rw [(firstFault_of_linkEnds hends).unique h]
  | ok ends =>
    have hjoins : g.Joins e ends.1.position ends.2.position :=
      joins_iff.2 ⟨ends.1, ends.2, hends, rfl, rfl⟩
    exact absurd h.suffers (hjoins.not_suffers fault)

end Graph

/-! ## Tables -/

/-- The positions of the ends of a link, if it has no fault. -/
def Link.ends? (link : Link) : Option (Nat × Nat) :=
  link.wire?.map fun w => (w.source.position, w.target.position)

namespace Index

/-- The fault of the edge at a position, if it has one. -/
def fault? (index : Index) (i : Nat) : Option LinkFault := index.links[i]?.bind Link.fault?

/-- The positions of the ends of the edge at a position, if it has no fault. -/
def ends? (index : Index) (i : Nat) : Option (Nat × Nat) := index.links[i]?.bind Link.ends?

/-- What an index says of the nodes of a graph. -/
structure Locates (index : Index) (g : Graph) : Prop where
  /-- The vertices are the nodes with their positions, in order. -/
  getElem?_vertices : ∀ p : Nat, index.vertices[p]? = g.nodes[p]?.map (Vertex.mk p)
  /-- An id is looked up to the node at the least position at which a node has the id. -/
  lookup?_eq_some_iff : ∀ id v, index.lookup? id = some v ↔
    g.nodes[v.position]? = some v.node ∧ g.Owns v.position id
  /-- An id is looked up in vain when no node has it. -/
  lookup?_eq_none_iff : ∀ id, index.lookup? id = none ↔ ∀ node ∈ g.nodes, node.id ≠ id
  /-- A node is shadowed when its own id is not looked up to it. -/
  isShadowed_iff : ∀ v ∈ index.vertices, index.isShadowed v = true ↔ index.lookup? v.id ≠ some v

/-- The wires listed at a position are those of the edges with an end there, in graph order. -/
structure Lists (index : Index) (wiresAt : Nat → List Wire) (pick : Nat × Nat → Nat) : Prop where
  /-- An edge is listed at the position of its end. -/
  mem_iff : ∀ p i, i ∈ (wiresAt p).map Wire.position ↔
    ∃ ends, index.ends? i = some ends ∧ pick ends = p
  /-- The edges are listed in ascending order, so none is listed twice. -/
  ascending : ∀ p, ((wiresAt p).map Wire.position).Pairwise (· < ·)

/-- What an index says of the edges of a graph. -/
structure Tabulates (index : Index) (g : Graph) : Prop where
  /-- There is a link for each edge, in order. -/
  map_links : (index.links.map fun link => (link.edge, link.position)) = g.edges.zipIdx
  /-- A wire is an edge of the graph between two of its nodes. -/
  mem_wires : ∀ w ∈ index.wires, g.edges[w.position]? = some w.edge ∧
    g.nodes[w.source.position]? = some w.source.node ∧
    g.nodes[w.target.position]? = some w.target.node
  /-- An edge has no fault when it has ends. -/
  fault?_eq_none_iff : ∀ i < g.edges.length,
    index.fault? i = none ↔ (index.ends? i).isSome = true
  /-- The fault of an edge is the first one that it suffers. -/
  fault?_eq_some_iff : ∀ i e, g.edges[i]? = some e → ∀ fault,
    index.fault? i = some fault ↔ g.FirstFault e fault
  /-- The ends of an edge are the positions that it joins. -/
  ends?_eq_some_iff : ∀ i a b, index.ends? i = some (a, b) ↔
    ∃ e, g.edges[i]? = some e ∧ g.Joins e a b
  /-- An edge is listed as leaving the position of its source. -/
  outgoing : index.Lists index.outgoing Prod.fst
  /-- An edge is listed as arriving at the position of its target. -/
  incoming : index.Lists index.incoming Prod.snd

end Index

/-! ## The nodes -/

namespace Graph

/-- A vertex is shadowed when its id is not looked up to it. -/
theorem isShadowed_iff_lookup?_ne {g : Graph} {v : Vertex} (hv : v ∈ g.index.vertices) :
    g.index.isShadowed v = true ↔ g.index.lookup? v.id ≠ some v := by
  unfold Index.isShadowed
  cases hlookup : g.index.lookup? v.id with
  | none => simp
  | some first =>
    have hfirst : first ∈ g.index.vertices := (owner?_eq_some hlookup).1
    rw [bne_iff_ne, not_iff_not, Option.some.injEq]
    exact ⟨g.index_sound.eq_of_position_eq hfirst hv, congrArg Vertex.position⟩

/-- A shadowed vertex owns no id. -/
theorem not_owns_of_isShadowed {g : Graph} {v : Vertex} (hv : v ∈ g.index.vertices)
    (h : g.index.isShadowed v = true) (id : String) : ¬ g.Owns v.position id := by
  intro howns
  have hnode := mem_vertices_iff.1 hv
  -- the only id that it could own is its own one
  obtain ⟨node, hnode', rfl⟩ := howns.id_eq
  obtain rfl : v.node = node := Option.some.inj (hnode.symm.trans hnode')
  have howner : g.index.lookup? v.id = some v := owner?_vertices_eq_some_iff.2 ⟨hnode, howns⟩
  exact (isShadowed_iff_lookup?_ne hv).1 h howner

/-- The index of a graph locates its nodes. -/
theorem locates_index (g : Graph) : g.index.Locates g where
  getElem?_vertices := g.getElem?_vertices
  lookup?_eq_some_iff _ _ := owner?_vertices_eq_some_iff
  lookup?_eq_none_iff _ := owner?_vertices_eq_none_iff
  isShadowed_iff _ hv := isShadowed_iff_lookup?_ne hv

end Graph

/-! ## One more edge -/

/-- What is appended to a list stands at the position that counts the list. -/
theorem getElem?_append_singleton {α : Type} (l : List α) (x : α) (i : Nat) :
    (l ++ [x])[i]? = if i = l.length then some x else l[i]? := by
  rcases Nat.lt_trichotomy i l.length with hlt | heq | hlt
  · rw [if_neg hlt.ne, List.getElem?_append_left hlt]
  · rw [if_pos heq, heq, List.getElem?_concat_length]
  · have hlength : (l ++ [x]).length ≤ i := by
      rw [List.length_append]
      exact hlt
    rw [if_neg hlt.ne', List.getElem?_eq_none hlength, List.getElem?_eq_none hlt.le]

namespace Link

variable {link : Link}

/-- The fault of a link is why it has no ends. -/
theorem fault?_eq_some_iff {fault : LinkFault} :
    link.fault? = some fault ↔ link.ends = .error fault := by
  rw [fault?]
  cases link.ends <;> simp

/-- A link without fault has ends. -/
theorem fault?_eq_none_iff : link.fault? = none ↔ link.ends?.isSome = true := by
  rw [fault?, ends?, wire?]
  cases link.ends <;> simp

/-- The ends of a link are the positions of its source and its target. -/
theorem ends?_eq_some_iff {a b : Nat} : link.ends? = some (a, b) ↔
    ∃ source target, link.ends = .ok (source, target) ∧ source.position = a ∧
      target.position = b := by
  rw [ends?, wire?]
  cases link.ends with
  | error fault => simp
  | ok ends =>
    obtain ⟨source, target⟩ := ends
    simp

end Link

namespace Index

/-- The link of an edge that is appended. -/
def nextLink (index : Index) (e : Edge) : Link :=
  ⟨index.links.length, e, linkEnds index.vertices e⟩

/-- Looks up the ends of an edge that is appended. -/
def addEdge (index : Index) (e : Edge) : Index :=
  { index with
    links := index.links ++ [index.nextLink e]
    wires := index.wires ++ (index.nextLink e).wire?.toList }

variable {index : Index} {e : Edge}

/-- The links are those from before and the new one. -/
theorem getElem?_links_addEdge (i : Nat) : (index.addEdge e).links[i]? =
    if i = index.links.length then some (index.nextLink e) else index.links[i]? := by
  rw [addEdge, getElem?_append_singleton]

/-- The ends of edges from before stay, and those of the new one are its own. -/
theorem ends?_addEdge (i : Nat) : (index.addEdge e).ends? i =
    if i = index.links.length then (index.nextLink e).ends? else index.ends? i := by
  rw [ends?, getElem?_links_addEdge]
  split <;> rfl

/-- The faults of edges from before stay, and that of the new one is its own. -/
theorem fault?_addEdge (i : Nat) : (index.addEdge e).fault? i =
    if i = index.links.length then (index.nextLink e).fault? else index.fault? i := by
  rw [fault?, getElem?_links_addEdge]
  split <;> rfl

/-- Nothing is listed at a position that is the end of no edge. -/
theorem Lists.eq_nil {wiresAt : Nat → List Wire} {pick : Nat × Nat → Nat}
    (h : index.Lists wiresAt pick) {p : Nat}
    (hp : ∀ i ends, index.ends? i = some ends → pick ends ≠ p) : wiresAt p = [] := by
  refine List.eq_nil_iff_forall_not_mem.2 fun w hw => ?_
  obtain ⟨ends, hends, hpick⟩ := (h.mem_iff p w.position).1 (List.mem_map_of_mem hw)
  exact hp w.position ends hends hpick

/-- A position at which an edge has ends is that of a link. -/
theorem lt_of_ends?_eq_some {i : Nat} {ends : Nat × Nat} (h : index.ends? i = some ends) :
    i < index.links.length := by
  obtain ⟨link, hlink, -⟩ := Option.bind_eq_some_iff.1 h
  exact (List.getElem?_eq_some_iff.1 hlink).1

/-- The wire of an appended edge is listed under the position of the edge, at its end. -/
theorem mem_map_nextLink_iff (pick : Nat × Nat → Nat) (p i : Nat) :
    i ∈ ((index.nextLink e).wire?.toList.filter fun w =>
        pick (w.source.position, w.target.position) == p).map Wire.position ↔
      i = index.links.length ∧ ∃ ends, (index.nextLink e).ends? = some ends ∧ pick ends = p := by
  rw [Link.ends?]
  cases hwire : (index.nextLink e).wire? with
  | none => simp
  | some w =>
    have hposition : index.links.length = w.position :=
      congrArg Link.position (Link.wire?_eq_some_iff.1 hwire)
    by_cases hpick : pick (w.source.position, w.target.position) = p
    · simp [hpick, hposition]
    · simp [hpick]

/-- The lists still hold the edges by their ends when the new wire is appended to the list of its
end. -/
theorem Lists.addEdge {wiresAt wiresAt' : Nat → List Wire} {pick : Nat × Nat → Nat}
    (h : index.Lists wiresAt pick) (hwiresAt : ∀ p, wiresAt' p = wiresAt p ++
      (index.nextLink e).wire?.toList.filter fun w =>
        pick (w.source.position, w.target.position) == p) :
    (index.addEdge e).Lists wiresAt' pick := by
  constructor
  · intro p i
    rw [hwiresAt, List.map_append, List.mem_append, h.mem_iff, mem_map_nextLink_iff, ends?_addEdge]
    split
    · rename_i hnew
      -- there was no edge at the position before
      have hnone : index.ends? i = none := Option.eq_none_iff_forall_ne_some.2 fun ends hends =>
        absurd (lt_of_ends?_eq_some hends) (Nat.not_lt.2 hnew.ge)
      rw [hnone]
      simp [hnew]
    · rename_i hold
      simp [hold]
  · intro p
    rw [hwiresAt, List.map_append, List.pairwise_append]
    refine ⟨h.ascending p, ?_, fun i hi j hj => ?_⟩
    · -- there is one new wire at most
      refine List.Pairwise.sublist (List.filter_sublist.map _) ?_
      cases (index.nextLink e).wire? <;> simp
    · -- the edges from before stand before the new one
      obtain ⟨ends, hends, -⟩ := (h.mem_iff p i).1 hi
      obtain ⟨rfl, -⟩ := (mem_map_nextLink_iff pick p j).1 hj
      exact lt_of_ends?_eq_some hends

end Index

namespace Graph

variable {g : Graph} (e e' : Edge)

/-- Another edge does not change the vertices. -/
theorem vertices_addEdge : (g.addEdge e).vertices = g.vertices := rfl

/-- Another edge does not change which positions an edge joins. -/
theorem joins_addEdge {a b : Nat} : (g.addEdge e).Joins e' a b ↔ g.Joins e' a b := by
  rw [joins_iff, joins_iff, vertices_addEdge]

/-- Another edge does not change the first fault of an edge. -/
theorem firstFault_addEdge {fault : LinkFault} :
    (g.addEdge e).FirstFault e' fault ↔ g.FirstFault e' fault := by
  rw [← linkEnds_eq_error_iff, ← linkEnds_eq_error_iff, vertices_addEdge]

/-- The edges are those from before and the new one. -/
theorem getElem?_edges_addEdge (i : Nat) : (g.addEdge e).edges[i]? =
    if i = g.edges.length then some e else g.edges[i]? := by
  rw [addEdge, getElem?_append_singleton]

/-- The index of a graph with one more edge is made of the index of the graph without it. -/
theorem index_addEdge : (g.addEdge e).index = g.index.addEdge e := by
  have hlinks : (g.addEdge e).index.links = g.index.links ++ [g.index.nextLink e] := by
    simp [index, addEdge, vertices, Index.nextLink, List.zipIdx_append]
  have hwires : (g.addEdge e).index.wires =
      g.index.wires ++ (g.index.nextLink e).wire?.toList := by
    show (g.addEdge e).index.links.filterMap Link.wire? = _
    rw [hlinks, List.filterMap_append, List.filterMap_cons]
    cases (g.index.nextLink e).wire? <;> rfl
  rw [Index.addEdge, ← hlinks, ← hwires]
  rfl

end Graph

/-- The tables still fit together when an edge is appended. -/
theorem Index.Tabulates.addEdge {index : Index} {g : Graph} (h : index.Tabulates g)
    (hvertices : index.vertices = g.vertices) (e : Edge) :
    (index.addEdge e).Tabulates (g.addEdge e) := by
  have hlength : index.links.length = g.edges.length := by
    simpa using congrArg List.length h.map_links
  constructor
  case map_links =>
    have hlinks : (index.addEdge e).links = index.links ++ [index.nextLink e] := rfl
    rw [hlinks, List.map_append, h.map_links, Graph.addEdge, List.zipIdx_append]
    simp [nextLink, hlength]
  case mem_wires =>
    intro w hw
    rw [Graph.getElem?_edges_addEdge]
    rcases List.mem_append.1 hw with hold | hnew
    · obtain ⟨hedge, hsource, htarget⟩ := h.mem_wires w hold
      have hlt : w.position < g.edges.length := (List.getElem?_eq_some_iff.1 hedge).1
      rw [if_neg hlt.ne]
      exact ⟨hedge, hsource, htarget⟩
    · have hlink := Link.wire?_eq_some_iff.1 (Option.mem_toList.1 hnew)
      obtain ⟨hposition, rfl, hends⟩ := Link.mk.inj hlink
      rw [hvertices] at hends
      obtain ⟨hsource, htarget, -, -⟩ := linkEnds_eq_ok hends
      rw [if_pos (hposition.symm.trans hlength)]
      exact ⟨rfl, (Graph.owns_of_owner? hsource).1, (Graph.owns_of_owner? htarget).1⟩
  case fault?_eq_none_iff =>
    intro i hi
    rw [fault?_addEdge, ends?_addEdge, hlength]
    split
    · exact Link.fault?_eq_none_iff
    · rename_i hne
      have hlt : i < g.edges.length + 1 := by
        simpa [Graph.addEdge] using hi
      exact h.fault?_eq_none_iff i (by omega)
  case fault?_eq_some_iff =>
    intro i e' he' fault
    rw [Graph.getElem?_edges_addEdge] at he'
    rw [fault?_addEdge, hlength, Graph.firstFault_addEdge]
    split
    · rename_i hnew
      rw [if_pos hnew] at he'
      obtain rfl : e = e' := Option.some.inj he'
      rw [Link.fault?_eq_some_iff, nextLink, hvertices]
      exact Graph.linkEnds_eq_error_iff
    · rename_i hold
      rw [if_neg hold] at he'
      exact h.fault?_eq_some_iff i e' he' fault
  case ends?_eq_some_iff =>
    intro i a b
    rw [ends?_addEdge, Graph.getElem?_edges_addEdge, hlength]
    simp only [Graph.joins_addEdge]
    split
    · rw [Link.ends?_eq_some_iff, nextLink, hvertices]
      simpa using Graph.joins_iff.symm
    · exact h.ends?_eq_some_iff i a b
  case outgoing => exact h.outgoing.addEdge fun p => List.filter_append _ _
  case incoming => exact h.incoming.addEdge fun p => List.filter_append _ _

namespace Graph

/-- The tables of edges are empty when there are no edges. -/
theorem tabulates_nil (nodes : List Node) : (Graph.mk nodes []).index.Tabulates ⟨nodes, []⟩ where
  map_links := rfl
  mem_wires _ hw := by cases hw
  fault?_eq_none_iff _ hi := absurd hi (Nat.not_lt_zero _)
  fault?_eq_some_iff _ _ he := by cases he
  ends?_eq_some_iff i a b := by
    simp [Index.ends?, index]
  outgoing := ⟨fun p i => by simp [Index.ends?, Index.outgoing, index], fun p => .nil⟩
  incoming := ⟨fun p i => by simp [Index.ends?, Index.incoming, index], fun p => .nil⟩

/-- The tables of edges in the index of a graph fit together. -/
theorem tabulates_index (g : Graph) : g.index.Tabulates g := by
  obtain ⟨nodes, edges⟩ := g
  induction edges using List.reverseRecOn with
  | nil => exact tabulates_nil nodes
  | append_singleton edges e ih =>
    have hstep := ih.addEdge rfl e
    rwa [← index_addEdge] at hstep

end Graph

end CircuitGraph
