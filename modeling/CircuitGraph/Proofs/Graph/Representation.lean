import CircuitGraph.Proofs.Graph.Tabulation
import Std.Data.HashMap.Lemmas

/-!
# An index represents its graph

An index is filled in two loops (`Graph.tables`). The loop over the nodes enters each id with the
position at which it is met first, and notes which nodes come too late. The loop over the edges
looks up the ends of an edge in what the first loop has left, and appends the edge to the lists of
its two ends. A table that is filled in this way holds what the index says (`Tables.Hold`): the one
loop is followed node by node (`Tables.HoldNodes.addNode`), the other one edge by edge
(`Tables.Hold.addEdge`).

`Index.Represents` says what each table holds in terms of the nodes and edges of the graph alone,
whatever ids are shared and wherever edges lead, and the index of every graph represents it
(`Graph.represents_index`).
-/

namespace CircuitGraph

/-! ## Two loops -/

/-- The tables of an index. -/
structure Tables where
  /-- The position of the node that has taken an id. -/
  owners : Std.HashMap String Nat
  /-- Whether the node at a position has come too late for its id. -/
  shadowed : List Bool
  /-- The fault of each edge. -/
  faults : List (Option LinkFault)
  /-- The positions of the ends of each edge. -/
  ends : List (Option (Nat × Nat))
  /-- The edges that leave each position. -/
  outgoing : List (List Nat)
  /-- The edges that arrive at each position. -/
  incoming : List (List Nat)

namespace Tables

/-- The tables before the loops, for a number of nodes. -/
def empty (n : Nat) : Tables where
  owners := ∅
  shadowed := List.replicate n false
  faults := []
  ends := []
  outgoing := List.replicate n []
  incoming := List.replicate n []

/-- The node at a position takes its id, unless another one has taken it. -/
def addNode (t : Tables) (p : Nat) (node : Node) : Tables :=
  if t.owners.contains node.id then { t with shadowed := t.shadowed.set p true }
  else { t with owners := t.owners.insert node.id p }

/-- The positions of the ends of an edge, or the first condition that fails. -/
def resolve (t : Tables) (nodes : List Node) (e : Edge) : Except LinkFault (Nat × Nat) :=
  match t.owners[e.source]? with
  | none => .error .missingSource
  | some a =>
    match t.owners[e.target]? with
    | none => .error .missingTarget
    | some b =>
      if !nodes[a]?.any Node.hasOutputPort || e.sourcePort != outputPort then
        .error .unknownSourcePort
      else if !nodes[b]?.any fun target => target.ports.contains e.targetPort then
        .error .unknownTargetPort
      else
        .ok (a, b)

/-- The edge at a position is appended to the lists of its ends, or its fault is noted. -/
def addEdge (t : Tables) (nodes : List Node) (i : Nat) (e : Edge) : Tables :=
  match t.resolve nodes e with
  | .ok (a, b) =>
    { t with
      outgoing := t.outgoing.modify a (· ++ [i])
      incoming := t.incoming.modify b (· ++ [i])
      faults := t.faults ++ [none]
      ends := t.ends ++ [some (a, b)] }
  | .error fault =>
    { t with
      faults := t.faults ++ [some fault]
      ends := t.ends ++ [none] }

/-- What the tables hold is what an index says. -/
structure Hold (t : Tables) (index : Index) : Prop where
  /-- An id is looked up to the position of the vertex that the index finds. -/
  owners : ∀ id, t.owners[id]? = (index.lookup? id).map Vertex.position
  /-- The nodes are shadowed that are shadowed in the index. -/
  shadowed : t.shadowed = index.vertices.map index.isShadowed
  /-- The edges have the faults that they have in the index. -/
  faults : t.faults = index.links.map Link.fault?
  /-- The edges have the ends that they have in the index. -/
  ends : t.ends = index.links.map Link.ends?
  /-- The edges that leave a position are those of the wires that leave it. -/
  outgoing : t.outgoing = index.vertices.map fun v => (index.outgoing v.position).map Wire.position
  /-- The edges that arrive at a position are those of the wires that arrive at it. -/
  incoming : t.incoming = index.vertices.map fun v => (index.incoming v.position).map Wire.position

end Tables

/-- The tables that the loops over the nodes and over the edges fill. -/
def Graph.tables (g : Graph) : Tables :=
  let t := g.nodes.zipIdx.foldl (fun t (node, p) => t.addNode p node) (.empty g.nodes.length)
  g.edges.zipIdx.foldl (fun t (e, i) => t.addEdge g.nodes i e) t

namespace Index

/-- What the tables of an index say of a graph. -/
structure Represents (index : Index) (g : Graph) : Prop
    extends index.Locates g, index.Tabulates g where
  /-- Nothing leaves a shadowed node, nothing arrives at it, and no edge has it as an end. -/
  shadowed : ∀ v ∈ index.vertices, index.isShadowed v = true →
    index.outgoing v.position = [] ∧ index.incoming v.position = [] ∧
      ∀ i a b, index.ends? i = some (a, b) → a ≠ v.position ∧ b ≠ v.position
  /-- The tables that are filled in loops over the nodes and over the edges hold what the index
  says. -/
  tables : g.tables.Hold index

end Index

/-! ## The loop over the nodes -/

section nodes

variable {vertices : List Vertex} {v : Vertex}

/-- The owner of an id is the one from before, when there is one. -/
theorem owner?_concat (vertices : List Vertex) (v : Vertex) (id : String) :
    owner? (vertices ++ [v]) id =
      (owner? vertices id).or (if v.id = id then some v else none) := by
  simp [owner?, List.find?_append, List.find?_singleton]

/-- The id of a vertex has an owner. -/
theorem isSome_owner? (hv : v ∈ vertices) : (owner? vertices v.id).isSome = true := by
  rw [owner?, List.find?_isSome]
  exact ⟨v, hv, beq_self_eq_true v.id⟩

/-- Which vertices come too late for their ids. -/
def shadows (vertices : List Vertex) : List Bool :=
  vertices.map (Index.mk vertices [] []).isShadowed

/-- An appended vertex comes too late when its id has an owner, and for the other vertices nothing
changes. -/
theorem shadows_concat (hpositions : ∀ u ∈ vertices, u.position < v.position) :
    shadows (vertices ++ [v]) = shadows vertices ++ [(owner? vertices v.id).isSome] := by
  have hold : ∀ u ∈ vertices, (Index.mk (vertices ++ [v]) [] []).isShadowed u =
      (Index.mk vertices [] []).isShadowed u := fun u hu => by
    obtain ⟨first, hfirst⟩ := Option.isSome_iff_exists.1 (isSome_owner? hu)
    simp [Index.isShadowed, Index.lookup?, owner?_concat, hfirst]
  have hnew : (Index.mk (vertices ++ [v]) [] []).isShadowed v = (owner? vertices v.id).isSome := by
    cases hfirst : owner? vertices v.id with
    | none => simp [Index.isShadowed, Index.lookup?, owner?_concat, hfirst]
    | some first =>
      have hlt := hpositions first (owner?_eq_some hfirst).1
      simp [Index.isShadowed, Index.lookup?, owner?_concat, hfirst, hlt.ne]
  rw [shadows, List.map_append, List.map_singleton, hnew, List.map_congr_left hold, shadows]

end nodes

namespace Tables

/-- What the tables hold when the loop has come past some vertices, and others are left. -/
structure HoldNodes (t : Tables) (vertices : List Vertex) (rest : Nat) : Prop where
  /-- An id is looked up to the first vertex that has it. -/
  owners : ∀ id, t.owners[id]? = (owner? vertices id).map Vertex.position
  /-- Which vertices are shadowed is known of those that the loop has come past. -/
  shadowed : t.shadowed = shadows vertices ++ List.replicate rest false
  /-- No edge has been looked at. -/
  faults : t.faults = []
  /-- No ends are known. -/
  ends : t.ends = []
  /-- No edge leaves a position. -/
  outgoing : t.outgoing = List.replicate (vertices.length + rest) []
  /-- No edge arrives at a position. -/
  incoming : t.incoming = List.replicate (vertices.length + rest) []

variable {t : Tables} {vertices : List Vertex} {rest : Nat}

/-- The tables hold what they should when the loop has come past one more vertex. -/
theorem HoldNodes.addNode (h : t.HoldNodes vertices (rest + 1)) {v : Vertex}
    (hpositions : ∀ u ∈ vertices, u.position < v.position) (hlast : v.position = vertices.length) :
    (t.addNode v.position v.node).HoldNodes (vertices ++ [v]) rest := by
  have hcontains : t.owners.contains v.node.id = (owner? vertices v.id).isSome := by
    rw [Std.HashMap.contains_eq_isSome_getElem?, h.owners, Option.isSome_map]
    rfl
  have hcount : (vertices ++ [v]).length + rest = vertices.length + (rest + 1) := by
    rw [List.length_append, List.length_singleton]
    omega
  have hshadowed := shadows_concat hpositions
  unfold Tables.addNode
  rw [hcontains]
  cases howner : owner? vertices v.id with
  | some first =>
    refine ⟨fun id => ?_, ?_, h.faults, h.ends, hcount ▸ h.outgoing, hcount ▸ h.incoming⟩
    · rw [owner?_concat]
      refine (h.owners id).trans (congrArg _ ?_)
      by_cases hid : v.id = id
      · rw [← hid, howner, Option.some_or]
      · rw [if_neg hid, Option.or_none]
    · have hlength : (shadows vertices).length = v.position := by
        rw [shadows, List.length_map, hlast]
      rw [hshadowed, howner, List.append_assoc]
      show t.shadowed.set v.position true = _
      rw [h.shadowed, List.set_append_right _ _ hlength.le, hlength, Nat.sub_self]
      rfl
  | none =>
    refine ⟨fun id => ?_, ?_, h.faults, h.ends, hcount ▸ h.outgoing, hcount ▸ h.incoming⟩
    · have hinsert : (t.owners.insert v.id v.position)[id]? =
          if v.id == id then some v.position else t.owners[id]? := Std.HashMap.getElem?_insert
      rw [owner?_concat]
      refine hinsert.trans ?_
      by_cases hid : v.id = id
      · rw [← hid, howner, if_pos rfl, if_pos (beq_self_eq_true v.id)]
        rfl
      · rw [if_neg hid, Option.or_none, if_neg (mt beq_iff_eq.1 hid)]
        exact h.owners id
    · rw [hshadowed, howner, List.append_assoc]
      exact h.shadowed

/-- The tables hold what they should when the loop has come past all nodes. -/
theorem HoldNodes.foldl {t : Tables} (before after : List Node)
    (h : t.HoldNodes (Graph.mk before []).vertices after.length) :
    ((after.zipIdx before.length).foldl (fun t (node, p) => t.addNode p node) t).HoldNodes
      (Graph.mk (before ++ after) []).vertices 0 := by
  induction after generalizing before t with
  | nil => simpa using h
  | cons node after ih =>
    have hvertices : (Graph.mk (before ++ [node]) []).vertices =
        (Graph.mk before []).vertices ++ [⟨before.length, node⟩] := by
      simp [Graph.vertices, List.zipIdx_append]
    have hpositions : ∀ u ∈ (Graph.mk before []).vertices, u.position < before.length := fun u hu =>
      (List.getElem?_eq_some_iff.1 (Graph.mem_vertices_iff.1 hu)).1
    have hstep := h.addNode (v := ⟨before.length, node⟩) hpositions (by simp [Graph.vertices])
    rw [← hvertices] at hstep
    have hrest := ih (before ++ [node]) hstep
    rw [List.length_append, List.append_assoc] at hrest
    exact hrest

/-- The tables hold what they should when the first loop has come to its end. -/
theorem holdNodes_tables (nodes : List Node) :
    (Graph.mk nodes []).tables.HoldNodes (Graph.mk nodes []).vertices 0 := by
  have hempty : (empty nodes.length).HoldNodes (Graph.mk [] []).vertices nodes.length :=
    ⟨fun _ => Std.HashMap.getElem?_empty, rfl, rfl, rfl, by simp [empty, Graph.vertices],
      by simp [empty, Graph.vertices]⟩
  exact hempty.foldl [] nodes

/-- Without edges, the tables of the first loop are those of the index. -/
theorem HoldNodes.hold {nodes : List Node} (h : t.HoldNodes (Graph.mk nodes []).vertices 0) :
    t.Hold (Graph.mk nodes []).index where
  owners := h.owners
  shadowed := h.shadowed.trans (List.append_nil _)
  faults := h.faults
  ends := h.ends
  outgoing := by
    rw [h.outgoing, Nat.add_zero, ← List.map_const']
    rfl
  incoming := by
    rw [h.incoming, Nat.add_zero, ← List.map_const']
    rfl

end Tables

/-! ## The loop over the edges -/

namespace Tables

variable {t : Tables} {g : Graph}

/-- The ends of an edge are looked up like those of a link. -/
theorem Hold.resolve_eq (h : t.Hold g.index) (e : Edge) : t.resolve g.nodes e =
    (linkEnds g.vertices e).map fun ends => (ends.1.position, ends.2.position) := by
  have hlookup (id : String) : t.owners[id]? = (owner? g.vertices id).map Vertex.position :=
    h.owners id
  unfold resolve linkEnds
  rw [hlookup, hlookup]
  cases hsource : owner? g.vertices e.source with
  | none => rfl
  | some source =>
    cases htarget : owner? g.vertices e.target with
    | none => rfl
    | some target =>
      simp only [Option.map_some, (Graph.owns_of_owner? hsource).1,
        (Graph.owns_of_owner? htarget).1, Option.any_some]
      split
      · rfl
      · split <;> rfl

/-- In a table that lists for each vertex the wires with an end there, a wire is appended to the list
of its end. -/
theorem modify_rows (g : Graph) (wires : List Wire) (w : Wire) (pick : Wire → Nat) :
    (g.vertices.map fun v => (wires.filter fun w => pick w == v.position).map Wire.position).modify
        (pick w) (· ++ [w.position]) =
      g.vertices.map fun v =>
        ((wires ++ [w]).filter fun w => pick w == v.position).map Wire.position := by
  refine List.ext_getElem? fun q => ?_
  rw [List.getElem?_modify, List.getElem?_map, List.getElem?_map, Graph.getElem?_vertices]
  by_cases hq : pick w = q
  · cases g.nodes[q]? <;> simp [hq]
  · cases g.nodes[q]? <;> simp [hq]

/-- The tables still hold what the index says when the loop has come past one more edge. -/
theorem Hold.addEdge (h : t.Hold g.index) (e : Edge) :
    (t.addEdge g.nodes g.edges.length e).Hold (g.addEdge e).index := by
  have hlength : g.index.links.length = g.edges.length := by simp [Graph.index]
  have hfaults : (g.index.addEdge e).links.map Link.fault? =
      t.faults ++ [(g.index.nextLink e).fault?] := by
    rw [h.faults, ← List.map_singleton, ← List.map_append]
    rfl
  have hends : (g.index.addEdge e).links.map Link.ends? =
      t.ends ++ [(g.index.nextLink e).ends?] := by
    rw [h.ends, ← List.map_singleton, ← List.map_append]
    rfl
  have hresolve := h.resolve_eq e
  rw [Graph.index_addEdge]
  cases hlink : linkEnds g.vertices e with
  | error fault =>
    have hnext : g.index.nextLink e = ⟨g.index.links.length, e, .error fault⟩ :=
      congrArg (Link.mk _ _) hlink
    have hwires : (g.index.addEdge e).wires = g.index.wires := by
      rw [Index.addEdge, hnext]
      exact List.append_nil _
    rw [hlink] at hresolve
    rw [hnext] at hfaults hends
    rw [Tables.addEdge, hresolve]
    refine ⟨h.owners, h.shadowed, hfaults.symm, hends.symm, h.outgoing.trans ?_,
      h.incoming.trans ?_⟩
    · simp only [Index.outgoing, hwires]
      rfl
    · simp only [Index.incoming, hwires]
      rfl
  | ok ends =>
    obtain ⟨source, target⟩ := ends
    have hnext : g.index.nextLink e = ⟨g.index.links.length, e, .ok (source, target)⟩ :=
      congrArg (Link.mk _ _) hlink
    have hwires : (g.index.addEdge e).wires =
        g.index.wires ++ [⟨g.edges.length, e, source, target⟩] := by
      rw [Index.addEdge, hnext, hlength]
      rfl
    rw [hlink] at hresolve
    rw [hnext] at hfaults hends
    rw [Tables.addEdge, hresolve]
    have hrows := modify_rows g g.index.wires ⟨g.edges.length, e, source, target⟩
    rw [← hwires] at hrows
    refine ⟨h.owners, h.shadowed, hfaults.symm, hends.symm, ?_, ?_⟩
    · exact (congrArg (List.modify · source.position (· ++ [g.edges.length])) h.outgoing).trans
        (hrows fun w => w.source.position)
    · exact (congrArg (List.modify · target.position (· ++ [g.edges.length])) h.incoming).trans
        (hrows fun w => w.target.position)

/-- The tables hold what the index says when the loops have come past all nodes and all edges. -/
theorem hold_tables (g : Graph) : g.tables.Hold g.index := by
  obtain ⟨nodes, edges⟩ := g
  induction edges using List.reverseRecOn with
  | nil => exact (holdNodes_tables nodes).hold
  | append_singleton edges e ih =>
    have htables : (Graph.mk nodes (edges ++ [e])).tables =
        (Graph.mk nodes edges).tables.addEdge nodes edges.length e := by
      simp [Graph.tables, List.zipIdx_append]
    rw [htables]
    exact ih.addEdge e

end Tables

namespace Graph

/-- **What an index holds.** The index of every graph represents it. -/
theorem represents_index (g : Graph) : g.index.Represents g where
  toLocates := g.locates_index
  toTabulates := g.tabulates_index
  shadowed v hv hshadowed := by
    have htables := g.tabulates_index
    have hends : ∀ i a b, g.index.ends? i = some (a, b) → a ≠ v.position ∧ b ≠ v.position := by
      intro i a b hi
      obtain ⟨e, -, hjoins⟩ := (htables.ends?_eq_some_iff i a b).1 hi
      -- both ends own the ids that the edge names
      constructor
      · rintro rfl
        exact not_owns_of_isShadowed hv hshadowed e.source hjoins.source
      · rintro rfl
        exact not_owns_of_isShadowed hv hshadowed e.target hjoins.target
    exact ⟨htables.outgoing.eq_nil fun i ends hi => (hends i ends.1 ends.2 hi).1,
      htables.incoming.eq_nil fun i ends hi => (hends i ends.1 ends.2 hi).2, hends⟩
  tables := Tables.hold_tables g

/-- An edge that leaves an output at a side and leads nowhere suffers two faults. Its target is
looked for before its ports. -/
example :
    let g : Graph := ⟨[⟨"y", .output .number "Y"⟩], [⟨"e", "y", "side", "nowhere", "in"⟩]⟩
    g.index.fault? 0 = some .missingTarget ∧ g.index.ends? 0 = none := by
  decide

end Graph

end CircuitGraph
