import CircuitGraph.Proofs.Graph.Flow
import CircuitGraph.Proofs.Graph.Reorder

/-!
# Paths of edges

A path follows well-formed edges from the id of one node to that of another. A node is fed when a
path leads to it from an input, and useful when a path leads from it to an output. On a graph whose
ids are distinct this is what the searches of an index mark (`Graph.isFed_iff`,
`Graph.isUseful_iff`), although those follow wires from position to position.
-/

namespace CircuitGraph

/-! ## Paths of wires -/

namespace Index

variable {index : Index}

/-- What a step along the wires leads to. -/
theorem mem_targets_iff {a b : Nat} :
    b ∈ ((index.outgoing a).map fun w => w.target.position) ↔ index.Leads a b := by
  simp only [List.mem_map, mem_outgoing, Leads, and_assoc]

/-- What a step against the wires leads to. -/
theorem mem_sources_iff {a b : Nat} :
    a ∈ ((index.incoming b).map fun w => w.source.position) ↔ index.Leads a b := by
  simp only [List.mem_map, mem_incoming, Leads, and_assoc]
  exact exists_congr fun w => and_congr_right fun _ => and_comm

/-- An input is a vertex. -/
theorem mem_vertices_of_mem_inputs {v : Vertex} (hv : v ∈ index.inputs) : v ∈ index.vertices :=
  mem_vertices_of_mem_owners (List.mem_filter.1 hv).1

/-- An output is a vertex. -/
theorem mem_vertices_of_mem_outputs {v : Vertex} (hv : v ∈ index.outputs) : v ∈ index.vertices :=
  mem_vertices_of_mem_owners (List.mem_filter.1 hv).1

/-- The search along the wires marks what a path leads to from a start. -/
theorem Sound.mem_reachableFrom_iff (hi : index.Sound) {starts : List Nat} {p : Nat} :
    p ∈ index.reachableFrom starts ↔
      ∃ s ∈ starts, s ∈ index.positions ∧ Relation.ReflTransGen index.Leads s p := by
  have hclosed : ∀ a, ∀ b ∈ (index.outgoing a).map (fun w => w.target.position),
      b ∈ index.positions := fun a b hb => hi.target_mem_positions hb
  rw [reachableFrom, mem_closure_iff hclosed]
  simp only [mem_targets_iff]

/-- The search against the wires marks that from which a path leads to a goal. -/
theorem Sound.mem_reaching_iff (hi : index.Sound) {goals : List Nat} {p : Nat} :
    p ∈ index.reaching goals ↔
      ∃ s ∈ goals, s ∈ index.positions ∧ Relation.ReflTransGen index.Leads p s := by
  have hclosed : ∀ b, ∀ a ∈ (index.incoming b).map (fun w => w.source.position),
      a ∈ index.positions := fun b a ha => hi.source_mem_positions ha
  rw [reaching, mem_closure_iff hclosed]
  -- its paths are those of the wires backwards
  simp only [mem_sources_iff]
  exact exists_congr fun s => and_congr_right fun _ => and_congr_right fun _ =>
    Relation.reflTransGen_swap

/-- A position is fed when a path of wires leads to it from an input. -/
theorem Sound.mem_fed_iff (hi : index.Sound) {p : Nat} :
    p ∈ index.fed ↔ ∃ v ∈ index.inputs, Relation.ReflTransGen index.Leads v.position p := by
  rw [fed, hi.mem_reachableFrom_iff]
  constructor
  · rintro ⟨p, hp, -, hpath⟩
    obtain ⟨v, hv, rfl⟩ := List.mem_map.1 hp
    exact ⟨v, hv, hpath⟩
  · rintro ⟨v, hv, hpath⟩
    exact ⟨v.position, List.mem_map_of_mem hv,
      List.mem_map_of_mem (mem_vertices_of_mem_inputs hv), hpath⟩

/-- A position is useful when a path of wires leads from it to an output. -/
theorem Sound.mem_useful_iff (hi : index.Sound) {p : Nat} :
    p ∈ index.useful ↔ ∃ v ∈ index.outputs, Relation.ReflTransGen index.Leads p v.position := by
  rw [useful, hi.mem_reaching_iff]
  constructor
  · rintro ⟨p, hp, -, hpath⟩
    obtain ⟨v, hv, rfl⟩ := List.mem_map.1 hp
    exact ⟨v, hv, hpath⟩
  · rintro ⟨v, hv, hpath⟩
    exact ⟨v.position, List.mem_map_of_mem hv,
      List.mem_map_of_mem (mem_vertices_of_mem_outputs hv), hpath⟩

end Index

/-! ## Paths of edges -/

namespace Graph

variable (g : Graph)

/-- A well-formed edge leads from the one id to the other. -/
def Connects (source target : String) : Prop :=
  ∃ e ∈ g.edges, g.isWellFormed e = true ∧ e.source = source ∧ e.target = target

/-- A path of well-formed edges leads from the one id to the other. -/
def Reaches : String → String → Prop := Relation.ReflTransGen g.Connects

/-- A path leads to the node of an id from an input. -/
def IsFed (id : String) : Prop :=
  ∃ input ∈ g.nodes, input.isInput = true ∧ g.Reaches input.id id

/-- A path leads from the node of an id to an output. -/
def IsUseful (id : String) : Prop :=
  ∃ output ∈ g.nodes, output.isOutput = true ∧ g.Reaches id output.id

/-- An edge connects two ids when a wire joins their owners. -/
theorem connects_iff_exists_wire {source target : String} :
    g.Connects source target ↔
      ∃ w ∈ g.index.wires, w.source.id = source ∧ w.target.id = target := by
  have hends : ∀ w ∈ g.index.wires, w.source.id = w.edge.source ∧ w.target.id = w.edge.target :=
    fun w hw => ⟨(owner?_eq_some (g.index_sound.source_owner w hw)).2,
      (owner?_eq_some (g.index_sound.target_owner w hw)).2⟩
  constructor
  · rintro ⟨e, he, hformed, rfl, rfl⟩
    have hmem : e ∈ g.index.wires.map Wire.edge := by
      rw [map_edge_wires]
      exact List.mem_filter.2 ⟨he, hformed⟩
    obtain ⟨w, hw, rfl⟩ := List.mem_map.1 hmem
    exact ⟨w, hw, hends w hw⟩
  · rintro ⟨w, hw, rfl, rfl⟩
    have hmem : w.edge ∈ g.edges.filter g.isWellFormed := by
      rw [← map_edge_wires]
      exact List.mem_map_of_mem hw
    obtain ⟨he, hformed⟩ := List.mem_filter.1 hmem
    exact ⟨w.edge, he, hformed, (hends w hw).1.symm, (hends w hw).2.symm⟩

variable {g}

/-- Owners with the same id are the same. -/
theorem eq_of_mem_owners {u v : Vertex} (hu : u ∈ g.index.owners) (hv : v ∈ g.index.owners)
    (h : u.id = v.id) : u = v := by
  have hlookup := g.index_sound.lookup?_id hu
  rw [h, g.index_sound.lookup?_id hv] at hlookup
  exact (Option.some.inj hlookup).symm

/-- A path of edges between the ids of owners is a path of wires between their positions. -/
theorem reaches_iff {u v : Vertex} (hu : u ∈ g.index.owners) (hv : v ∈ g.index.owners) :
    g.Reaches u.id v.id ↔ Relation.ReflTransGen g.index.Leads u.position v.position := by
  have hi := g.index_sound
  constructor
  · -- by induction on the path: every id behind the first one is that of the target of a wire
    have hpath : ∀ id, g.Reaches u.id id → ∀ v ∈ g.index.owners, v.id = id →
        Relation.ReflTransGen g.index.Leads u.position v.position := by
      intro id hreaches
      induction hreaches with
      | refl =>
        intro v hv hid
        rw [eq_of_mem_owners hv hu hid]
      | tail _ hstep ih =>
        intro v hv hid
        obtain ⟨w, hw, hsource, htarget⟩ := g.connects_iff_exists_wire.1 hstep
        have hlast : w.target = v :=
          eq_of_mem_owners (hi.target_mem_owners hw) hv (htarget.trans hid.symm)
        have hinit := ih w.source (hi.source_mem_owners hw) hsource
        exact hinit.tail ⟨w, hw, rfl, by rw [hlast]⟩
    exact fun h => hpath v.id h v hv rfl
  · have hpath : ∀ p, Relation.ReflTransGen g.index.Leads u.position p → ∀ v ∈ g.index.owners,
        v.position = p → g.Reaches u.id v.id := by
      intro p hleads
      induction hleads with
      | refl =>
        intro v hv hposition
        rw [hi.eq_of_position_eq (Index.mem_vertices_of_mem_owners hv)
          (Index.mem_vertices_of_mem_owners hu) hposition]
        exact .refl
      | tail _ hstep ih =>
        intro v hv hposition
        obtain ⟨w, hw, hsource, htarget⟩ := hstep
        have hlast : w.target = v :=
          hi.eq_of_position_eq (Index.mem_vertices_of_mem_owners (hi.target_mem_owners hw))
            (Index.mem_vertices_of_mem_owners hv) (htarget.trans hposition.symm)
        have hinit := ih w.source (hi.source_mem_owners hw) hsource
        exact hinit.tail (g.connects_iff_exists_wire.2 ⟨w, hw, rfl, by rw [hlast]⟩)
    exact fun h => hpath v.position h v hv rfl

/-- The ids of an accepted graph are distinct. -/
theorem nodup_ids_of_accepted {config : Config} (ha : g.index.Accepted config) :
    (g.nodes.map Node.id).Nodup := by
  rw [← map_id_vertices]
  exact g.index_sound.nodup_vertices.map_on fun _ hu _ hv h => ha.eq_of_id_eq hu hv h

/-- When ids are distinct, every node has a vertex that owns its id. -/
theorem exists_owner_of_nodup (hids : (g.nodes.map Node.id).Nodup) {node : Node}
    (hnode : node ∈ g.nodes) : ∃ v ∈ g.index.owners, v.node = node := by
  obtain ⟨v, hv, rfl⟩ := g.exists_vertex hnode
  have hshadowed : g.index.isShadowed v = false := by
    refine Index.not_isShadowed_of_nodup ?_ hv
    show (g.vertices.map Vertex.id).Nodup
    rwa [map_id_vertices]
  exact ⟨v, List.mem_filter.2 ⟨hv, by rw [hshadowed]; rfl⟩, rfl⟩

/-- When ids are distinct, a vertex is fed when its position is. -/
theorem isFed_iff (hids : (g.nodes.map Node.id).Nodup) {v : Vertex} (hv : v ∈ g.index.owners) :
    g.IsFed v.id ↔ v.position ∈ g.index.fed := by
  rw [g.index_sound.mem_fed_iff]
  constructor
  · rintro ⟨input, hmem, hinput, hpath⟩
    obtain ⟨u, hu, rfl⟩ := exists_owner_of_nodup hids hmem
    exact ⟨u, List.mem_filter.2 ⟨hu, hinput⟩, (reaches_iff hu hv).1 hpath⟩
  · rintro ⟨u, hu, hpath⟩
    obtain ⟨howner, hinput⟩ := List.mem_filter.1 hu
    exact ⟨u.node, g.node_mem_of_mem_vertices (Index.mem_vertices_of_mem_inputs hu), hinput,
      (reaches_iff howner hv).2 hpath⟩

/-- When ids are distinct, a vertex is useful when its position is. -/
theorem isUseful_iff (hids : (g.nodes.map Node.id).Nodup) {v : Vertex} (hv : v ∈ g.index.owners) :
    g.IsUseful v.id ↔ v.position ∈ g.index.useful := by
  rw [g.index_sound.mem_useful_iff]
  constructor
  · rintro ⟨output, hmem, houtput, hpath⟩
    obtain ⟨u, hu, rfl⟩ := exists_owner_of_nodup hids hmem
    exact ⟨u, List.mem_filter.2 ⟨hu, houtput⟩, (reaches_iff hv hu).1 hpath⟩
  · rintro ⟨u, hu, hpath⟩
    obtain ⟨howner, houtput⟩ := List.mem_filter.1 hu
    exact ⟨u.node, g.node_mem_of_mem_vertices (Index.mem_vertices_of_mem_outputs hu), houtput,
      (reaches_iff hv howner).2 hpath⟩

/-! ## Cycles of edges -/

/-- A path of well-formed edges leads from an id back to it. -/
def OnCycle (g : Graph) (id : String) : Prop := Relation.TransGen g.Connects id id

/-- No path of well-formed edges returns to where it started. -/
def Acyclic (g : Graph) : Prop := ∀ id, ¬ Relation.TransGen g.Connects id id

/-- The id of an owner lies on a cycle of edges when its position lies on one of wires. -/
theorem onCycle_iff {v : Vertex} (hv : v ∈ g.index.owners) :
    g.OnCycle v.id ↔ Relation.TransGen g.index.Leads v.position v.position := by
  have hi := g.index_sound
  rw [OnCycle, Relation.TransGen.tail'_iff, Relation.TransGen.tail'_iff]
  -- in both relations the last step of the cycle is a wire into the vertex
  constructor
  · rintro ⟨id, hpath, hstep⟩
    obtain ⟨w, hw, rfl, htarget⟩ := g.connects_iff_exists_wire.1 hstep
    obtain rfl := eq_of_mem_owners (hi.target_mem_owners hw) hv htarget
    exact ⟨w.source.position, (reaches_iff hv (hi.source_mem_owners hw)).1 hpath, w, hw, rfl, rfl⟩
  · rintro ⟨p, hpath, w, hw, rfl, htarget⟩
    obtain rfl := hi.eq_of_position_eq (hi.target_mem_vertices hw)
      (Index.mem_vertices_of_mem_owners hv) htarget
    exact ⟨w.source.id, (reaches_iff hv (hi.source_mem_owners hw)).2 hpath,
      g.connects_iff_exists_wire.2 ⟨w, hw, rfl, rfl⟩⟩

/-- Every step leads to the id of an owner. -/
theorem Connects.exists_owner {source target : String} (h : g.Connects source target) :
    ∃ v ∈ g.index.owners, v.id = target := by
  obtain ⟨w, hw, -, htarget⟩ := g.connects_iff_exists_wire.1 h
  exact ⟨w.target, g.index_sound.target_mem_owners hw, htarget⟩

/-- What lies on a cycle is the id of an owner. -/
theorem OnCycle.exists_owner {id : String} (h : g.OnCycle id) :
    ∃ v ∈ g.index.owners, v.id = id := by
  obtain ⟨_, -, hstep⟩ := Relation.TransGen.tail'_iff.1 h
  exact hstep.exists_owner

/-- The wires of a graph run in a cycle when its edges do. -/
theorem acyclic_iff : g.index.Acyclic ↔ g.Acyclic := by
  constructor
  · intro h id hloop
    obtain ⟨v, hv, rfl⟩ := OnCycle.exists_owner hloop
    exact h v.position ((onCycle_iff hv).1 hloop)
  · intro h p hloop
    obtain ⟨_, -, w, hw, -, rfl⟩ := Relation.TransGen.tail'_iff.1 hloop
    have howner := g.index_sound.target_mem_owners hw
    exact h w.target.id ((onCycle_iff howner).2 hloop)

end Graph

end CircuitGraph
