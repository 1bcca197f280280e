import CircuitGraph.Proofs.Graph.Reach
import Mathlib.Algebra.Group.End

/-!
# Listing a graph in another order

An index knows a vertex by its position, and positions change when the nodes of a graph are listed
in another order. `Index.Reordered σ index index'` says that two indexes differ in nothing else: the
permutation `σ` of the positions takes the vertices, the links and the wires of the one to those of
the other, up to the order in which they are listed. `Graph.exists_reordered` finds such a
permutation for every graph with distinct ids. With a shared id there is none, because the first
node that has the id owns it.

What later stages ask of an index is then the same up to `σ`: who owns an id, what arrives at a
vertex and what leaves it, and which vertices are fed or useful.
-/

namespace CircuitGraph

/-! ## Moved vertices -/

/-- The same node at another position. -/
def Vertex.move (σ : Equiv.Perm Nat) (v : Vertex) : Vertex := ⟨σ v.position, v.node⟩

namespace Vertex

variable (σ : Equiv.Perm Nat)

/-- The position of a moved vertex. -/
@[simp] theorem position_move (v : Vertex) : (v.move σ).position = σ v.position := rfl

/-- The node of a moved vertex. -/
@[simp] theorem node_move (v : Vertex) : (v.move σ).node = v.node := rfl

/-- The id of a moved vertex. -/
@[simp] theorem id_move (v : Vertex) : (v.move σ).id = v.id := rfl

/-- Different vertices stay different. -/
theorem move_injective : Function.Injective (Vertex.move σ) := by
  rintro ⟨p, node⟩ ⟨q, other⟩ h
  simp only [move, mk.injEq, EmbeddingLike.apply_eq_iff_eq] at h
  rw [h.1, h.2]

end Vertex

/-- Two indexes that differ only in the order in which nodes and edges are listed. -/
structure Index.Reordered (σ : Equiv.Perm Nat) (index index' : Index) : Prop where
  /-- The vertices are the moved ones. -/
  vertices : (index.vertices.map (Vertex.move σ)).Perm index'.vertices
  /-- No id is shared. -/
  nodup_ids : (index.vertices.map Vertex.id).Nodup
  /-- Each edge has the same fault. -/
  links : (index.links.map fun l => (l.edge, l.fault?)).Perm
    (index'.links.map fun l => (l.edge, l.fault?))
  /-- Each well-formed edge joins the moved vertices. -/
  wires : (index.wires.map fun w => (w.edge, w.source.move σ, w.target.move σ)).Perm
    (index'.wires.map fun w => (w.edge, w.source, w.target))

/-! ## Finding the permutation -/

/-- The permutation that leaves the first position alone and acts on those behind it. -/
def shiftPerm (σ : Equiv.Perm Nat) : Equiv.Perm Nat where
  toFun
    | 0 => 0
    | i + 1 => σ i + 1
  invFun
    | 0 => 0
    | i + 1 => σ.symm i + 1
  left_inv := by rintro (_ | i) <;> simp
  right_inv := by rintro (_ | i) <;> simp

/-- Lists that are permutations of each other have the same elements at permuted positions. -/
theorem exists_perm_getElem? {α : Type} {l l' : List α} (h : l.Perm l') :
    ∃ σ : Equiv.Perm Nat, ∀ i, l'[σ i]? = l[i]? := by
  induction h with
  | nil => exact ⟨1, fun i => rfl⟩
  | cons a h ih =>
    obtain ⟨σ, hσ⟩ := ih
    refine ⟨shiftPerm σ, ?_⟩
    rintro (_ | i)
    · rfl
    · exact hσ i
  | swap a b l =>
    refine ⟨Equiv.swap 0 1, ?_⟩
    rintro (_ | _ | i)
    · rfl
    · rfl
    · rw [Equiv.swap_apply_of_ne_of_ne (by omega) (by omega)]
      rfl
  | trans _ _ ih ih' =>
    obtain ⟨σ, hσ⟩ := ih
    obtain ⟨τ, hτ⟩ := ih'
    exact ⟨τ * σ, fun i => by rw [Equiv.Perm.mul_apply, hτ, hσ]⟩

variable {σ : Equiv.Perm Nat}

/-- The owner of an id among moved vertices is the moved owner. -/
theorem owner?_of_perm {vertices vertices' : List Vertex}
    (hids : (vertices.map Vertex.id).Nodup)
    (hperm : (vertices.map (Vertex.move σ)).Perm vertices') (id : String) :
    owner? vertices' id = (owner? vertices id).map (Vertex.move σ) := by
  have hids' : (vertices'.map Vertex.id).Nodup := by
    rw [← (hperm.map Vertex.id).nodup_iff, List.map_map]
    exact hids
  refine Option.ext fun v' => ?_
  rw [owner?_eq_some_iff hids', Option.map_eq_some_iff, ← hperm.mem_iff, List.mem_map]
  simp only [owner?_eq_some_iff hids]
  constructor
  · rintro ⟨⟨v, hv, rfl⟩, hid⟩
    exact ⟨v, ⟨hv, hid⟩, rfl⟩
  · rintro ⟨v, ⟨hv, hid⟩, rfl⟩
    exact ⟨⟨v, hv, rfl⟩, hid⟩

/-- The ends of an edge among moved vertices are the moved ends. -/
theorem linkEnds_of_perm {vertices vertices' : List Vertex}
    (hids : (vertices.map Vertex.id).Nodup)
    (hperm : (vertices.map (Vertex.move σ)).Perm vertices') (edge : Edge) :
    linkEnds vertices' edge =
      (linkEnds vertices edge).map (Prod.map (Vertex.move σ) (Vertex.move σ)) :=
  linkEnds_map (Vertex.node_move σ) (owner?_of_perm hids hperm edge.source)
    (owner?_of_perm hids hperm edge.target)

namespace Graph

/-- A vertex of a graph is the node at its position. -/
theorem mem_vertices_iff {g : Graph} {v : Vertex} :
    v ∈ g.vertices ↔ g.nodes[v.position]? = some v.node := by
  rw [vertices, ← List.mk_mem_zipIdx_iff_getElem?, List.mem_map]
  constructor
  · rintro ⟨⟨node, i⟩, hmem, rfl⟩
    exact hmem
  · exact fun hmem => ⟨_, hmem, rfl⟩

/-- The nodes of the vertices are those of the graph. -/
theorem map_node_vertices (g : Graph) : g.vertices.map Vertex.node = g.nodes := by
  rw [vertices, List.map_map]
  exact List.zipIdx_map_fst 0 g.nodes

/-- The ids of the vertices are those of the nodes. -/
theorem map_id_vertices (g : Graph) : g.vertices.map Vertex.id = g.nodes.map Node.id := by
  have hid : Vertex.id ∘ (fun p : Node × Nat => (⟨p.2, p.1⟩ : Vertex)) = Node.id ∘ Prod.fst := rfl
  rw [vertices, List.map_map, hid, ← List.map_map, List.zipIdx_map_fst]

/-- The vertices of a graph whose nodes are listed in another order are the moved ones. -/
theorem exists_perm_vertices {g g' : Graph} (h : g.nodes.Perm g'.nodes) :
    ∃ σ : Equiv.Perm Nat, (g.vertices.map (Vertex.move σ)).Perm g'.vertices := by
  obtain ⟨σ, hσ⟩ := exists_perm_getElem? h
  have hnodup : (g.vertices.map (Vertex.move σ)).Nodup :=
    g.index_sound.nodup_vertices.map (Vertex.move_injective σ)
  refine ⟨σ, (List.perm_ext_iff_of_nodup hnodup g'.index_sound.nodup_vertices).2 fun v' => ?_⟩
  rw [List.mem_map]
  constructor
  · rintro ⟨v, hv, rfl⟩
    exact mem_vertices_iff.2 ((hσ v.position).trans (mem_vertices_iff.1 hv))
  · intro hv'
    -- the vertex stood at the position that the permutation takes to its new one
    have hposition : (⟨σ.symm v'.position, v'.node⟩ : Vertex).move σ = v' := by
      simp [Vertex.move]
    refine ⟨⟨σ.symm v'.position, v'.node⟩, mem_vertices_iff.2 ?_, hposition⟩
    rw [← hσ, Equiv.apply_symm_apply]
    exact mem_vertices_iff.1 hv'

/-- What is said of a link by its edge and the ends of its edge does not depend on the order of the
edges. -/
theorem perm_map_links {β : Type} {g g' : Graph} (h : g.edges.Perm g'.edges) {f f' : Link → β}
    (hf : ∀ e i j, f ⟨i, e, linkEnds g.vertices e⟩ = f' ⟨j, e, linkEnds g'.vertices e⟩) :
    (g.index.links.map f).Perm (g'.index.links.map f') := by
  have hmap : ∀ (g : Graph) (f : Link → β) (φ : Edge → β),
      (∀ e i, f ⟨i, e, linkEnds g.vertices e⟩ = φ e) → g.index.links.map f = g.edges.map φ := by
    intro g f φ hφ
    rw [index, List.map_map, ← List.zipIdx_map_fst 0 g.edges, List.map_map, List.zipIdx_map_fst]
    exact List.map_congr_left fun p _ => hφ p.1 p.2
  rw [hmap g f (fun e => f ⟨0, e, linkEnds g.vertices e⟩) fun e i =>
      (hf e i 0).trans (hf e 0 0).symm,
    hmap g' f' (fun e => f ⟨0, e, linkEnds g.vertices e⟩) fun e j => (hf e 0 j).symm]
  exact h.map _

/-- The indexes of a graph with distinct ids and of the same graph listed in another order differ
only in the order. -/
theorem exists_reordered {g g' : Graph} (hnodes : g.nodes.Perm g'.nodes)
    (hedges : g.edges.Perm g'.edges) (hids : (g.nodes.map Node.id).Nodup) :
    ∃ σ, g.index.Reordered σ g'.index := by
  obtain ⟨σ, hperm⟩ := exists_perm_vertices hnodes
  rw [← map_id_vertices] at hids
  have hends := linkEnds_of_perm hids hperm
  refine ⟨σ, hperm, hids, ?_, ?_⟩
  · refine perm_map_links hedges fun e i j => ?_
    simp only [Link.fault?, hends]
    cases linkEnds g.vertices e <;> rfl
  · -- a link that is no wire drops out on both sides
    have hlinks : (g.index.links.map fun l => l.wire?.map fun w =>
          (w.edge, w.source.move σ, w.target.move σ)).Perm
        (g'.index.links.map fun l => l.wire?.map fun w => (w.edge, w.source, w.target)) := by
      refine perm_map_links hedges fun e i j => ?_
      simp only [Link.wire?, hends]
      cases linkEnds g.vertices e <;> rfl
    have hwires := hlinks.filterMap id
    rw [List.filterMap_map, List.filterMap_map] at hwires
    simp only [index, List.map_filterMap]
    exact hwires

end Graph

/-! ## What stays the same -/

namespace Index.Reordered

variable {index index' : Index} (h : index.Reordered σ index')

include h

/-- The owner of an id is the moved owner. -/
theorem lookup? (id : String) : index'.lookup? id = (index.lookup? id).map (Vertex.move σ) :=
  owner?_of_perm h.nodup_ids h.vertices id

/-- No id is shared after the move. -/
theorem nodup_ids' : (index'.vertices.map Vertex.id).Nodup := by
  rw [← (h.vertices.map Vertex.id).nodup_iff, List.map_map]
  exact h.nodup_ids

/-- The owners are the moved ones. -/
theorem owners : (index.owners.map (Vertex.move σ)).Perm index'.owners := by
  have hshadowed : ∀ v, index'.isShadowed (v.move σ) = index.isShadowed v := by
    intro v
    unfold Index.isShadowed
    rw [Vertex.id_move, h.lookup? v.id]
    cases index.lookup? v.id with
    | none => rfl
    | some first =>
      show (σ first.position != σ v.position) = (first.position != v.position)
      simp only [bne, beq_eq_decide, EmbeddingLike.apply_eq_iff_eq]
  have hfilter := h.vertices.filter fun v => !index'.isShadowed v
  rw [List.filter_map] at hfilter
  simpa only [Index.owners, Function.comp_def, hshadowed] using hfilter

/-- The inputs are the moved ones. -/
theorem inputs : (index.inputs.map (Vertex.move σ)).Perm index'.inputs := by
  have hfilter := h.owners.filter fun v => v.node.isInput
  rwa [List.filter_map] at hfilter

/-- The outputs are the moved ones. -/
theorem outputs : (index.outputs.map (Vertex.move σ)).Perm index'.outputs := by
  have hfilter := h.owners.filter fun v => v.node.isOutput
  rwa [List.filter_map] at hfilter

/-- What arrives at a moved vertex is the same edges, from the moved sources. -/
theorem incoming (p : Nat) : ((index.incoming p).map fun w => (w.edge, w.source.move σ)).Perm
    ((index'.incoming (σ p)).map fun w => (w.edge, w.source)) := by
  have hfilter := (h.wires.filter fun k => k.2.2.position == σ p).map fun k => (k.1, k.2.1)
  rw [List.filter_map, List.filter_map, List.map_map, List.map_map] at hfilter
  simpa only [Index.incoming, Function.comp_def, Vertex.position_move, beq_eq_decide,
    EmbeddingLike.apply_eq_iff_eq] using hfilter

/-- What leaves a moved vertex leads to the moved targets. -/
theorem outgoing (p : Nat) : ((index.outgoing p).map fun w => σ w.target.position).Perm
    ((index'.outgoing (σ p)).map fun w => w.target.position) := by
  have hfilter := (h.wires.filter fun k => k.2.1.position == σ p).map fun k => k.2.2.position
  rw [List.filter_map, List.filter_map, List.map_map, List.map_map] at hfilter
  simpa only [Index.outgoing, Function.comp_def, Vertex.position_move, beq_eq_decide,
    EmbeddingLike.apply_eq_iff_eq] using hfilter

/-- A moved position is one of those after the move. -/
theorem mem_positions (p : Nat) : σ p ∈ index'.positions ↔ p ∈ index.positions := by
  have hpositions := h.vertices.map Vertex.position
  rw [List.map_map] at hpositions
  rw [Index.positions, ← hpositions.mem_iff, Index.positions]
  simp

end Index.Reordered

/-- The search marks the same positions up to a permutation that takes what it is given to what it
is given. -/
theorem mem_closure_of_perm {next next' : Nat → List Nat}
    {unmarked unmarked' pending pending' : List Nat}
    (hclosed : ∀ a, ∀ b ∈ next a, b ∈ unmarked) (hclosed' : ∀ a, ∀ b ∈ next' a, b ∈ unmarked')
    (hnext : ∀ a b, σ b ∈ next' (σ a) ↔ b ∈ next a)
    (hunmarked : ∀ p, σ p ∈ unmarked' ↔ p ∈ unmarked)
    (hpending : ∀ p, σ p ∈ pending' ↔ p ∈ pending) (p : Nat) :
    σ p ∈ closure next' unmarked' pending' ↔ p ∈ closure next unmarked pending := by
  have hpath : ∀ s, Relation.ReflTransGen (fun a b => b ∈ next' a) (σ s) (σ p) ↔
      Relation.ReflTransGen (fun a b => b ∈ next a) s p := by
    intro s
    constructor
    · intro hp
      have hback : ∀ a b, b ∈ next' a → σ.symm b ∈ next (σ.symm a) := fun a b hb => by
        rwa [← hnext, Equiv.apply_symm_apply, Equiv.apply_symm_apply]
      have hlift : Relation.ReflTransGen (fun a b => b ∈ next a) (σ.symm (σ s)) (σ.symm (σ p)) :=
        hp.lift σ.symm hback
      rwa [Equiv.symm_apply_apply, Equiv.symm_apply_apply] at hlift
    · exact fun hp => hp.lift σ fun a b hb => (hnext a b).2 hb
  rw [mem_closure_iff hclosed, mem_closure_iff hclosed', σ.surjective.exists]
  simp only [hpending, hunmarked, hpath]

namespace Index.Reordered

variable {index index' : Index} (h : index.Reordered σ index')

include h

/-- A moved position is fed when the position is. -/
theorem contains_fed (hi : index.Sound) (hi' : index'.Sound) (p : Nat) :
    index'.fed.contains (σ p) = index.fed.contains p := by
  rw [Bool.eq_iff_iff, List.contains_iff_mem, List.contains_iff_mem]
  refine mem_closure_of_perm ?_ ?_ ?_ h.mem_positions ?_ p
  · exact fun a b hb => hi.target_mem_positions hb
  · exact fun a b hb => hi'.target_mem_positions hb
  · intro a b
    rw [← (h.outgoing a).mem_iff]
    simp
  · intro q
    rw [← (h.inputs.map Vertex.position).mem_iff]
    simp

/-- A moved position is useful when the position is. -/
theorem contains_useful (hi : index.Sound) (hi' : index'.Sound) (p : Nat) :
    index'.useful.contains (σ p) = index.useful.contains p := by
  rw [Bool.eq_iff_iff, List.contains_iff_mem, List.contains_iff_mem]
  refine mem_closure_of_perm ?_ ?_ ?_ h.mem_positions ?_ p
  · exact fun a b hb => hi.source_mem_positions hb
  · exact fun a b hb => hi'.source_mem_positions hb
  · intro a b
    have hsources := (h.incoming a).map fun k => k.2.position
    rw [List.map_map, List.map_map] at hsources
    have := hsources.mem_iff (a := σ b)
    simpa using this.symm
  · intro q
    rw [← (h.outputs.map Vertex.position).mem_iff]
    simp

end Index.Reordered

end CircuitGraph
