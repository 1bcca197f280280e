import CircuitGraph.Graph.Gallery
import CircuitGraph.Proofs.Graph.Path
import CircuitGraph.Proofs.Order.Verdict
import CircuitGraph.Proofs.Text.Utf8

/-!
# What a cycle holds up

When vertices are left behind, ordering reports their ids. They are those of the nodes that lie on a
cycle or behind one (`Graph.HoldsUp`), and all other nodes have been placed.

Nothing else is left behind, because every vertex that is has a wire from another one: going
backwards along such wires, but only over vertices from which the given one is reached, ends up on a
cycle. And all of it is left behind, because what lies on a cycle or behind one feeds itself.
-/

namespace CircuitGraph

open CircuitGraph.Text

/-- A vertex is left behind when a path leads to it from a cycle, and only then. -/
theorem Index.Sound.mem_left_iff {index : Index} (hi : index.Sound) {v : Vertex}
    (hv : v ∈ index.owners) :
    v ∈ (place index index.degrees index.owners).2 ↔
      ∃ u ∈ index.owners, Relation.TransGen index.Leads u.position u.position ∧
        Relation.ReflTransGen index.Leads u.position v.position := by
  classical
  constructor
  · intro hleft
    -- the vertices left behind from which this one is reached have sources among themselves
    let above := (place index index.degrees index.owners).2.filter fun u =>
      Relation.ReflTransGen index.Leads u.position v.position
    have hne : above ≠ [] :=
      List.ne_nil_of_mem (List.mem_filter.2 ⟨hleft, decide_eq_true .refl⟩)
    have hsources : ∀ u ∈ above, ∃ w ∈ index.incoming u.position, w.source ∈ above := by
      intro u hu
      obtain ⟨hmem, hpath⟩ := List.mem_filter.1 hu
      obtain ⟨w, hw, hsource⟩ := exists_source_of_mem_left hi (Index.counted_degrees hi)
        (hi.nodup_vertices.filter _) (fun _ h => h) hmem
      obtain ⟨hwire, htarget⟩ := Index.mem_incoming.1 hw
      have hstep : index.Leads w.source.position u.position := ⟨w, hwire, rfl, htarget⟩
      exact ⟨w, hw, List.mem_filter.2
        ⟨hsource, decide_eq_true (.head hstep (of_decide_eq_true hpath))⟩⟩
    obtain ⟨u, hu, hloop⟩ := Index.exists_cycle_of_sources hne hsources
    obtain ⟨hmem, hpath⟩ := List.mem_filter.1 hu
    have howner : u ∈ index.owners :=
      (place_perm index index.degrees index.owners).subset (List.mem_append_right _ hmem)
    exact ⟨u, howner, hloop, of_decide_eq_true hpath⟩
  · rintro ⟨u, -, hloop, hpath⟩
    let behind := index.owners.filter fun x =>
      Relation.ReflTransGen index.Leads u.position x.position
    have hfed : index.SelfFed behind := by
      intro x hx
      obtain ⟨howner, hux⟩ := List.mem_filter.1 hx
      -- the last step of a path to the vertex, where the cycle serves for a path without steps
      have hlast : ∃ p, Relation.ReflTransGen index.Leads u.position p ∧
          index.Leads p x.position := by
        rcases Relation.reflTransGen_iff_eq_or_transGen.1 (of_decide_eq_true hux) with heq | htrans
        · rw [heq]
          exact Relation.TransGen.tail'_iff.1 hloop
        · exact Relation.TransGen.tail'_iff.1 htrans
      obtain ⟨p, hup, w, hw, rfl, htarget⟩ := hlast
      exact ⟨howner, w, Index.mem_incoming.2 ⟨hw, htarget⟩,
        List.mem_filter.2 ⟨hi.source_mem_owners hw, decide_eq_true hup⟩⟩
    exact hfed.mem_left hi (List.mem_filter.2 ⟨hv, decide_eq_true hpath⟩)

namespace Graph

/-- What ordering reports of a graph that it cannot order for a cycle. -/
structure HoldsUp (g : Graph) (unresolved : List String) : Prop where
  /-- Something is reported. -/
  ne_nil : unresolved ≠ []
  /-- The ids ascend strictly by their bytes, so none of them is repeated. -/
  ascending : unresolved.Pairwise fun a b => utf8 a < utf8 b
  /-- The ids are those of the nodes that lie on a cycle or to which a path leads from one. -/
  mem_iff : ∀ id, id ∈ unresolved ↔ ∃ node ∈ g.nodes, node.id = id ∧
    (g.OnCycle id ∨ ∃ start, g.OnCycle start ∧ g.Reaches start id)
  /-- Every other node has been placed, once. -/
  placed_perm : ((place g.index g.index.degrees g.index.owners).1.map Vertex.node).Perm
    (g.nodes.filter fun node => node.id ∉ unresolved)

variable {g : Graph}

/-- The vertices of a graph that is not ordered for a cycle own their ids. -/
theorem owners_eq_of_cycle {unresolved : List String}
    (h : g.linearize = .error (.cycle unresolved)) : g.index.owners = g.vertices := by
  obtain ⟨hnone, -, -⟩ := Index.linearize_eq_cycle_iff.1 h
  refine List.filter_eq_self.2 fun v hv => ?_
  simpa using List.find?_eq_none.1 hnone v hv

/-- Distinct ids are sorted into a strictly ascending list. -/
theorem ascending_mergeSort {ids : List String} (h : ids.Nodup) :
    (ids.mergeSort fun a b => a ≤ b).Pairwise fun a b => utf8 a < utf8 b := by
  have hsorted : (ids.mergeSort fun a b => a ≤ b).Pairwise fun a b => decide (a ≤ b) = true :=
    List.pairwise_mergeSort
      (fun a b c hab hbc => by
        simp only [decide_eq_true_eq] at *
        exact String.le_trans hab hbc)
      (fun a b => by simpa using String.le_total a b) ids
  have hnodup : (ids.mergeSort fun a b => a ≤ b).Nodup :=
    (List.mergeSort_perm ids _).nodup_iff.2 h
  refine (hsorted.and hnodup).imp fun {a b} hab => lt_iff_utf8_lt.1 ?_
  by_contra hge
  exact hab.2 (String.le_antisymm (of_decide_eq_true hab.1) (String.not_lt.1 hge))

/-- When no id is shared, the placed vertices are those whose ids are not reported. -/
theorem placed_perm_filter (hids : (g.vertices.map Vertex.id).Nodup) {placed left : List Vertex}
    (h : (placed ++ left).Perm g.vertices) :
    (placed.map Vertex.node).Perm
      (g.nodes.filter fun node => node.id ∉ left.map Vertex.id) := by
  have hnodup : ((placed ++ left).map Vertex.id).Nodup := (h.map _).nodup_iff.2 hids
  rw [List.map_append, List.nodup_append'] at hnodup
  have hplaced : placed.filter (fun v => v.id ∉ left.map Vertex.id) = placed :=
    List.filter_eq_self.2 fun v hv =>
      decide_eq_true (hnodup.2.2 (List.mem_map_of_mem hv))
  have hleft : left.filter (fun v => v.id ∉ left.map Vertex.id) = [] :=
    List.filter_eq_nil_iff.2 fun v hv => by simpa using ⟨v, hv, rfl⟩
  have hfilter := h.filter fun v => v.id ∉ left.map Vertex.id
  rw [List.filter_append, hplaced, hleft, List.append_nil] at hfilter
  rw [← map_node_vertices, List.filter_map]
  exact hfilter.map Vertex.node

/-- A node is left behind when it lies on a cycle or behind one. -/
theorem mem_ids_left_iff (howners : g.index.owners = g.vertices) {id : String} :
    id ∈ (place g.index g.index.degrees g.index.owners).2.map Vertex.id ↔
      ∃ node ∈ g.nodes, node.id = id ∧
        (g.OnCycle id ∨ ∃ start, g.OnCycle start ∧ g.Reaches start id) := by
  have hi := g.index_sound
  have hsub : ∀ v ∈ (place g.index g.index.degrees g.index.owners).2, v ∈ g.index.owners :=
    fun v hv => (place_perm g.index g.index.degrees g.index.owners).subset
      (List.mem_append_right _ hv)
  constructor
  · intro hmem
    obtain ⟨v, hleft, rfl⟩ := List.mem_map.1 hmem
    have hv := hsub v hleft
    obtain ⟨u, hu, hloop, hpath⟩ := (hi.mem_left_iff hv).1 hleft
    exact ⟨v.node, g.node_mem_of_mem_vertices (Index.mem_vertices_of_mem_owners hv), rfl,
      .inr ⟨u.id, (onCycle_iff hu).2 hloop, (reaches_iff hu hv).2 hpath⟩⟩
  · rintro ⟨node, hnode, rfl, hcycle⟩
    have hstart : ∃ start, g.OnCycle start ∧ g.Reaches start node.id :=
      hcycle.elim (fun h => ⟨node.id, h, .refl⟩) fun h => h
    obtain ⟨start, hloop, hpath⟩ := hstart
    obtain ⟨u, hu, rfl⟩ := hloop.exists_owner
    obtain ⟨v, hv, rfl⟩ := g.exists_vertex hnode
    have howner : v ∈ g.index.owners := howners ▸ hv
    exact List.mem_map_of_mem ((hi.mem_left_iff howner).2
      ⟨u, hu, (onCycle_iff hu).1 hloop, (reaches_iff hu howner).1 hpath⟩)

/-- When a graph is not ordered for a cycle, exactly what lies on a cycle or behind one is reported,
and everything else has been placed. -/
theorem holdsUp_of_linearize {unresolved : List String}
    (h : g.linearize = .error (.cycle unresolved)) : g.HoldsUp unresolved := by
  have howners := owners_eq_of_cycle h
  obtain ⟨-, hne, rfl⟩ := Index.linearize_eq_cycle_iff.1 h
  have hperm := (place_perm g.index g.index.degrees g.index.owners).trans (.of_eq howners)
  have hids : (g.vertices.map Vertex.id).Nodup := by
    rw [← howners]
    exact (g.index_sound.nodup_vertices.filter _).map_on fun u hu v hv => eq_of_mem_owners hu hv
  have hsorted := List.mergeSort_perm
    ((place g.index g.index.degrees g.index.owners).2.map Vertex.id) fun a b => a ≤ b
  have hleft : ((place g.index g.index.degrees g.index.owners).2.map Vertex.id).Nodup := by
    have hboth := (hperm.map Vertex.id).nodup_iff.2 hids
    rw [List.map_append, List.nodup_append'] at hboth
    exact hboth.2.1
  exact
    { ne_nil := fun hnil => by
        rw [hnil, List.nil_perm, List.map_eq_nil_iff] at hsorted
        exact hne hsorted
      ascending := ascending_mergeSort hleft
      mem_iff := fun id => hsorted.mem_iff.trans (mem_ids_left_iff howners)
      placed_perm := by
        have hplaced := placed_perm_filter hids hperm
        simpa only [hsorted.mem_iff] using hplaced }

/-- Two nodes that feed each other, one that feeds them and one that they feed. -/
def knot : Graph where
  nodes :=
    [Exhibit.secret "x" "X", Exhibit.output "out" .number "Out", Exhibit.operation "b" .add,
     Exhibit.operation "a" .add, Exhibit.secret "y" "Y"]
  edges :=
    [Graph.wire "a" "b" "a", Graph.wire "b" "a" "a", Graph.wire "x" "a" "b",
     Graph.wire "b" "out" "in"]

/-- Of the knot, the two nodes on the cycle and the output behind it are reported. -/
theorem holdsUp_knot :
    knot.linearize = .error (.cycle ["a", "b", "out"]) ∧ knot.HoldsUp ["a", "b", "out"] := by
  -- the inputs are placed, and all the others are left behind
  have hplace : place knot.index knot.index.degrees knot.index.owners =
      (knot.index.inputs, knot.vertices.filter fun v => !v.node.isInput) := by cbv
  have hleft : (knot.vertices.filter fun v => !v.node.isInput).map Vertex.id =
      ["out", "b", "a"] := rfl
  have h : knot.linearize = .error (.cycle ["a", "b", "out"]) := by
    refine Index.linearize_eq_cycle_iff.2 ⟨rfl, ?_, ?_⟩
    · rw [hplace]
      exact fun hnil => List.cons_ne_nil _ _ hnil
    · rw [hplace, hleft]
      simp [List.mergeSort]
  exact ⟨h, holdsUp_of_linearize h⟩

end Graph

end CircuitGraph
