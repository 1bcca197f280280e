import CircuitGraph.Graph.Gallery
import CircuitGraph.Proofs.Graph.Path
import CircuitGraph.Proofs.Order.Verdict

/-!
# Who takes part

A node takes no part for one of three reasons: nothing arrives at it, it feeds no output, or no
input feeds it. On a graph without fatal diagnostics only the second reason is left. Every node but
an input has a declared port, and something arrives there; so whoever is not fed has a source that
is not fed either, which cannot go on without a cycle (`Index.Accepted.mem_fed`). Therefore the
advisory about such nodes names exactly what pruning drops (`Graph.advisesDropped_of_hasFatal`).

It also follows that a graph is free of fatal diagnostics as soon as it is accepted and has an
output (`Index.Accepted.validate_eq`).
-/

namespace CircuitGraph

open CircuitGraph.Validation

variable {config : Config}

/-- A setting needs a port. -/
theorem Setting.ports_ne_nil {gadget : Gadget} {setting : Setting}
    (h : gadget.Admits config setting) : setting.ports ≠ [] := by
  cases setting with
  | hash inputs =>
    have hone : 1 ≤ inputs := by
      cases gadget with
      | hash => exact h.1
      | _ => exact h.elim
    rw [ports, ne_eq, List.map_eq_nil_iff, List.range_eq_nil]
    omega
  | _ => exact List.cons_ne_nil _ _

/-- A graph computes something when it has an output that an input feeds. -/
theorem Index.Sound.unreachableMessage?_eq_none_iff {index : Index} (hi : index.Sound) :
    unreachableMessage? index = none ↔ ∃ v ∈ index.outputs, v.position ∈ index.fed := by
  unfold unreachableMessage?
  constructor
  · intro hnone
    split at hnone
    · cases hnone
    · split at hnone
      · cases hnone
      · dsimp only at hnone
        split at hnone
        · rename_i hany
          obtain ⟨v, hv, hfed⟩ := List.any_eq_true.1 hany
          exact ⟨v, hv, List.contains_iff_mem.1 hfed⟩
        · cases hnone
  · rintro ⟨v, hv, hfed⟩
    obtain ⟨s, hs, -⟩ := hi.mem_fed_iff.1 hfed
    have hinputs : index.inputs.isEmpty = false := List.isEmpty_eq_false_iff_exists_mem.2 ⟨s, hs⟩
    have houtputs : index.outputs.isEmpty = false :=
      List.isEmpty_eq_false_iff_exists_mem.2 ⟨v, hv⟩
    have hany : (index.outputs.any fun v => index.fed.contains v.position) = true :=
      List.any_eq_true.2 ⟨v, hv, List.contains_iff_mem.2 hfed⟩
    simp only [hinputs, houtputs, hany, Bool.false_eq_true, if_false, if_true]

namespace Index.Accepted

variable {index : Index} (ha : index.Accepted config)

include ha

/-- Every node but an input declares a port. -/
theorem names_ports_ne_nil (hc : config.Accepted) {v : Vertex} (hv : v ∈ index.owners)
    (hinput : v.node.isInput = false) : v.node.ports.names ≠ [] := by
  unfold Node.ports
  cases hkind : v.node.kind with
  | input visibility label => simp [Node.isInput, hkind] at hinput
  | gadget gadget params =>
    obtain ⟨setting, hresolve⟩ := ha.resolves v hv gadget params hkind
    show (gadget.ports params).names ≠ []
    rw [(Gadget.names_ports_of_resolve hc hresolve).1]
    exact Setting.ports_ne_nil (Gadget.admits_of_resolve hresolve)
  | _ => exact List.cons_ne_nil _ _

/-- Something arrives at every node but an input. -/
theorem exists_mem_incoming (hc : config.Accepted) {v : Vertex} (hv : v ∈ index.owners)
    (hinput : v.node.isInput = false) : ∃ w, w ∈ index.incoming v.position := by
  obtain ⟨port, hport⟩ := List.exists_mem_of_ne_nil _ (ha.names_ports_ne_nil hc hv hinput)
  have hone := ha.count_targetPort hv hport
  obtain ⟨w, hw, -⟩ := List.mem_map.1 (List.count_pos_iff.1 (hone ▸ Nat.one_pos))
  exact ⟨w, hw⟩

/-- Some input feeds every vertex. -/
theorem mem_fed (hc : config.Accepted) (hi : index.Sound) {v : Vertex} (hv : v ∈ index.owners) :
    v.position ∈ index.fed := by
  -- the vertices that are not fed would all have a source among themselves
  have hnone : (index.owners.filter fun v => !index.fed.contains v.position) = [] := by
    refine ha.acyclic.eq_nil_of_sources fun u hu => ?_
    obtain ⟨howner, hunfed⟩ := List.mem_filter.1 hu
    have hunfed : u.position ∉ index.fed := by simpa using hunfed
    have hinput : u.node.isInput = false := by
      refine Bool.eq_false_iff.2 fun hinput => hunfed (hi.mem_fed_iff.2 ⟨u, ?_, .refl⟩)
      exact List.mem_filter.2 ⟨howner, hinput⟩
    obtain ⟨w, hw⟩ := ha.exists_mem_incoming hc howner hinput
    obtain ⟨hwire, htarget⟩ := mem_incoming.1 hw
    refine ⟨w, hw, List.mem_filter.2 ⟨hi.source_mem_owners hwire, ?_⟩⟩
    have hsource : w.source.position ∉ index.fed := by
      intro hfed
      obtain ⟨s, hs, hpath⟩ := hi.mem_fed_iff.1 hfed
      exact hunfed (hi.mem_fed_iff.2 ⟨s, hs, hpath.tail ⟨w, hwire, rfl, htarget⟩⟩)
    simpa using hsource
  by_contra hunfed
  have hmem : v ∈ index.owners.filter fun v => !index.fed.contains v.position :=
    List.mem_filter.2 ⟨hv, by simpa using hunfed⟩
  rw [hnone] at hmem
  cases hmem

/-- A vertex takes part when it feeds an output, and only then. -/
theorem orphanMessage?_eq_none_iff (hc : config.Accepted) (hi : index.Sound) {v : Vertex}
    (hv : v ∈ index.owners) :
    orphanMessage? index index.fed index.useful v = none ↔ v.position ∈ index.useful := by
  have hincoming : (!v.node.isInput && (index.incoming v.position).isEmpty) = false := by
    rw [Bool.and_eq_false_iff, Bool.not_eq_false']
    cases hinput : v.node.isInput with
    | true => exact .inl rfl
    | false =>
      obtain ⟨w, hw⟩ := ha.exists_mem_incoming hc hv hinput
      exact .inr (List.isEmpty_eq_false_iff_exists_mem.2 ⟨w, hw⟩)
  have hfed : index.fed.contains v.position = true :=
    List.contains_iff_mem.2 (ha.mem_fed hc hi hv)
  unfold orphanMessage?
  simp only [hincoming, hfed, Bool.not_true, Bool.false_eq_true, if_false]
  cases huseful : index.useful.contains v.position with
  | true => simpa using List.contains_iff_mem.1 huseful
  | false => simpa using huseful

/-- The nodes that the advisory names are those that feed no output. -/
theorem map_nodeId_orphans (hc : config.Accepted) (hi : index.Sound) :
    (orphans index).map Diagnostic.nodeId =
      (index.owners.filter fun v => !index.useful.contains v.position).map fun v => some v.id := by
  rw [orphans, List.map_filterMap, ← List.filterMap_eq_map, List.filterMap_filter]
  refine List.filterMap_congr fun v hv => ?_
  have hiff := ha.orphanMessage?_eq_none_iff hc hi hv
  cases hmessage : orphanMessage? index index.fed index.useful v with
  | none => simpa using hiff.1 hmessage
  | some message =>
    have huseful : v.position ∉ index.useful := fun hmem =>
      Option.some_ne_none message (hmessage.symm.trans (hiff.2 hmem))
    simp [huseful, Diagnostic.atNode]

/-! ## Nothing fatal -/

/-- An accepted graph with an output computes something. -/
theorem unreachableMessage?_eq_none (hc : config.Accepted) (hi : index.Sound)
    (houtputs : index.outputs ≠ []) : unreachableMessage? index = none := by
  obtain ⟨v, hv⟩ := List.exists_mem_of_ne_nil _ houtputs
  exact hi.unreachableMessage?_eq_none_iff.2
    ⟨v, hv, ha.mem_fed hc hi (List.mem_filter.1 hv).1⟩

/-- Of an accepted graph with an output only advisories are reported. -/
theorem validate_eq (hc : config.Accepted) (hi : index.Sound) (houtputs : index.outputs ≠ []) :
    index.validate config = orphans index ++ typeMismatches index := by
  have hids : duplicateIds index = [] := by
    refine hi.duplicateIds_eq_nil_iff.2 (List.find?_eq_none.2 fun v hv => ?_)
    simp [ha.unique v hv]
  have hedges : danglingEdges index = [] :=
    List.filterMap_eq_nil_iff.2 fun link hlink => by rw [ha.links link hlink]; rfl
  have hcycles : cyclesDetected index = [] :=
    hi.cyclesDetected_eq_nil_iff.2 (place_left_eq_nil hi ha.acyclic)
  have harity : arityMismatches index = [] := by
    refine List.filterMap_eq_nil_iff.2 fun v hv => ?_
    have hproblems : (v.node.ports.names.filterMap fun port => portProblem? port
        (((index.incoming v.position).map fun w => w.edge.targetPort).count port)) = [] :=
      List.filterMap_eq_nil_iff.2 fun port hport => by rw [ha.count_targetPort hv hport]; rfl
    unfold arityOf?
    simp only [hproblems, List.isEmpty_nil, if_true, ite_self]
  have hparams : parameters config index = [] := by
    refine List.filterMap_eq_nil_iff.2 fun v hv => ?_
    unfold parameterOf?
    split
    · rename_i gadget params hkind
      obtain ⟨setting, hresolve⟩ := ha.resolves v hv gadget params hkind
      rw [hresolve]
    · rfl
  have hreach : unreachableOutput index = [] := by
    rw [unreachableOutput, ha.unreachableMessage?_eq_none hc hi houtputs]
    rfl
  rw [Index.validate, hids, hedges, hcycles, harity, hparams, hreach]
  simp

/-- Of an accepted graph with an output nothing fatal is reported. -/
theorem hasFatal_validate (hc : config.Accepted) (hi : index.Sound)
    (houtputs : index.outputs ≠ []) : hasFatal (index.validate config) = false := by
  rw [ha.validate_eq hc hi houtputs, hasFatal, List.any_append, Bool.or_eq_false_iff]
  constructor
  · refine List.any_eq_false.2 fun d hd => ?_
    obtain ⟨v, -, hd⟩ := List.mem_filterMap.1 hd
    obtain ⟨message, -, rfl⟩ := Option.map_eq_some_iff.1 hd
    exact Bool.false_ne_true
  · refine List.any_eq_false.2 fun d hd => ?_
    obtain ⟨w, -, hd⟩ := List.mem_filterMap.1 hd
    unfold typeMismatchOf? at hd
    split at hd
    · split at hd
      · cases hd
        exact Bool.false_ne_true
      · cases hd
    · cases hd

end Index.Accepted

/-- A graph without fatal diagnostics has an output that an input feeds. -/
theorem Validation.exists_output_of_hasFatal {index : Index} (hi : index.Sound)
    (h : hasFatal (index.validate config) = false) :
    ∃ v ∈ index.outputs, v.position ∈ index.fed := by
  refine hi.unreachableMessage?_eq_none_iff.1 ?_
  cases hmessage : unreachableMessage? index with
  | none => rfl
  | some message =>
    have hd : Diagnostic.ofGraph .noOutputReachable message ∈ index.validate config := by
      refine mem_validate_iff.2 ?_
      show _ ∈ unreachableOutput index
      rw [unreachableOutput, hmessage]
      exact List.mem_singleton_self _
    exact absurd rfl (List.any_eq_false.1 h _ hd)

/-- A graph without fatal diagnostics has an output. -/
theorem Validation.outputs_ne_nil {index : Index} (hi : index.Sound)
    (h : hasFatal (index.validate config) = false) : index.outputs ≠ [] := by
  obtain ⟨v, hv, -⟩ := exists_output_of_hasFatal hi h
  exact List.ne_nil_of_mem hv

/-! ## What is dropped -/

/-- The advisory about nodes that take no part names exactly what is dropped from the order of a
graph, and nothing that is kept lacks a value. -/
structure Graph.AdvisesDropped (config : Config) (g : Graph) (order : LinearOrder) : Prop where
  /-- A path leads to every node from an input. -/
  fed : ∀ node ∈ g.nodes, g.IsFed node.id
  /-- Every output is kept. -/
  outputs_kept : ∀ node ∈ g.nodes, node.isOutput = true →
    node ∈ order.pruned.vertices.map Vertex.node
  /-- What is not kept is dropped. -/
  split_perm : (order.pruned.vertices ++ order.unused).Perm order.vertices
  /-- A node is dropped when no path leads from it to an output. -/
  dropped_iff : ∀ node ∈ g.nodes, node.id ∈ order.unused.map Vertex.id ↔ ¬ g.IsUseful node.id
  /-- No id is dropped twice. -/
  nodup_dropped : (order.unused.map Vertex.id).Nodup
  /-- Each id that is dropped is named by one advisory, and no other id is. -/
  named_perm : (((g.validate config).filter fun d => d.problem = .orphanNode).map
    Diagnostic.nodeId).Perm (order.unused.map fun v => some v.id)

/-- Without fatal diagnostics the advisory about nodes that take no part names what is dropped. -/
theorem Graph.advisesDropped_of_hasFatal (config : Config) (hc : config.check = .ok ()) (g : Graph)
    (h : hasFatal (g.validate config) = false) :
    ∃ order, g.linearize = .ok order ∧ g.AdvisesDropped config order := by
  have hc := Config.accepted_of_check hc
  have hi := g.index_sound
  have ha := accepted_of_hasFatal hi h
  have hids := nodup_ids_of_accepted ha
  obtain ⟨order, horder⟩ := Index.exists_linearize hi ha.acyclic ha.unique
  obtain ⟨hindex, hperm, hordered⟩ := Index.linearize_spec hi horder
  have howners := Index.perm_owners_of_linearize horder
  have hunused : order.unused = order.vertices.filter fun v =>
      !g.index.useful.contains v.position := by
    rw [LinearOrder.unused, hindex]
  have hnodup : (order.vertices.map Vertex.id).Nodup := by
    rw [(hperm.map Vertex.id).nodup_iff]
    exact g.map_id_vertices.symm ▸ hids
  refine ⟨order, horder, ?_⟩
  exact
    { fed := by
        intro node hnode
        obtain ⟨v, hv, rfl⟩ := exists_owner_of_nodup hids hnode
        exact (isFed_iff hids hv).2 (ha.mem_fed hc hi hv)
      outputs_kept := by
        intro node hnode houtput
        obtain ⟨v, hv, rfl⟩ := exists_owner_of_nodup hids hnode
        have huseful : v.position ∈ g.index.useful :=
          Index.position_mem_useful_of_mem_outputs (List.mem_filter.2 ⟨hv, houtput⟩)
        rw [LinearOrder.pruned, hindex]
        exact List.mem_map_of_mem (List.mem_filter.2
          ⟨howners.mem_iff.2 hv, List.contains_iff_mem.2 huseful⟩)
      split_perm := List.filter_append_perm _ order.vertices
      dropped_iff := by
        intro node hnode
        obtain ⟨v, hv, rfl⟩ := exists_owner_of_nodup hids hnode
        rw [show v.node.id = v.id from rfl, isUseful_iff hids hv, hunused, List.mem_map]
        constructor
        · rintro ⟨u, hu, hid⟩
          obtain ⟨hmem, hnot⟩ := List.mem_filter.1 hu
          rw [← eq_of_mem_owners (hordered.owners u hmem) hv hid]
          simpa using hnot
        · intro hnot
          exact ⟨v, List.mem_filter.2 ⟨howners.mem_iff.2 hv, by simpa using hnot⟩, rfl⟩
      nodup_dropped := hnodup.sublist (List.filter_sublist.map _)
      named_perm := by
        rw [validate, filter_validate]
        show ((orphans g.index).map Diagnostic.nodeId).Perm _
        rw [ha.map_nodeId_orphans hc hi, hunused]
        exact (howners.symm.filter _).map _ }

/-- The gallery's range check with an input and a sum beside it that feed no output. -/
def stragglers : Graph where
  nodes := Exhibit.secret "spare" "Spare" :: Exhibit.rangeVerification.graph.nodes ++
    [Exhibit.operation "twice" .add]
  edges := Exhibit.rangeVerification.graph.edges ++
    [Graph.wire "spare" "twice" "a", Graph.wire "spare" "twice" "b"]

/-- The stragglers pass validation. -/
theorem hasFatal_stragglers : hasFatal (stragglers.validate {}) = false := by
  refine Validation.hasFatal_validate_eq_false fun problem => ?_
  cases problem with
  -- these checks search the graph, and searches are not unfolded by definition
  | cycleDetected | orphanNode | noOutputReachable => cbv
  | _ => rfl

/-- The stragglers are dropped, and the advisory names them. -/
theorem Graph.advisesDropped_stragglers :
    ({} : Config).check = .ok () ∧ hasFatal (stragglers.validate {}) = false ∧
      ∃ order, stragglers.linearize = .ok order ∧ stragglers.AdvisesDropped {} order ∧
        order.unused.map Vertex.id = ["spare", "twice"] := by
  have hfatal := hasFatal_stragglers
  have hdropped : (stragglers.linearize.map fun order => order.unused.map Vertex.id) =
      .ok ["spare", "twice"] := by cbv
  obtain ⟨order, horder, hadvises⟩ := Graph.advisesDropped_of_hasFatal {} rfl stragglers hfatal
  rw [horder] at hdropped
  exact ⟨rfl, hfatal, order, horder, hadvises, Except.ok.inj hdropped⟩

end CircuitGraph
