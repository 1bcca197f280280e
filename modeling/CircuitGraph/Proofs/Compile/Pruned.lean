import CircuitGraph.Proofs.Circom.Reorder
import CircuitGraph.Proofs.Compile.Gating
import CircuitGraph.Proofs.Graph.Restrict
import CircuitGraph.Proofs.Validation.Image

/-!
# What feeds no output has no influence

Nodes that feed no output are dropped late: the whole graph is checked and ordered before, and the
names of the circuit are given out after. `Graph.compilesAsRestricted_of_hasFatal` says that it
makes no difference: when those nodes and their edges are taken out of the graph beforehand, the
same source comes out with the same estimate and the same digest, and the only diagnostics that are
missing are the advisories about the nodes taken out.
-/

namespace CircuitGraph

open CircuitGraph.Circom CircuitGraph.Validation

/-! ## The diagnostics of an image -/

/-- Numbers at boolean outputs are found by the edges of the wires and the nodes at their ends. -/
theorem Validation.typeMismatches_eq (index : Index) :
    typeMismatches index =
      (index.wires.map fun w => (w.edge.id, w.edge.targetPort, w.source, w.target)).filterMap
        fun k => typeMismatchOf? ⟨0, ⟨k.1, "", "", "", k.2.1⟩, k.2.2.1, k.2.2.2⟩ := by
  rw [typeMismatches, List.filterMap_map]
  rfl

/-- What is found at a wire depends on the id of its edge and the nodes at its ends. -/
theorem Validation.typeMismatchOf?_congr {w w' : Wire} (hid : w.edge.id = w'.edge.id)
    (hsource : w.source.node = w'.source.node) (htarget : w.target.node = w'.target.node) :
    typeMismatchOf? w = typeMismatchOf? w' := by
  unfold typeMismatchOf?
  rw [Vertex.id, Vertex.id, Vertex.id, Vertex.id, hid, hsource, htarget]

/-- A number is reported only where it arrives at an output. -/
theorem Validation.typeMismatchOf?_eq_none {w : Wire} (h : w.target.node.isOutput = false) :
    typeMismatchOf? w = none := by
  unfold typeMismatchOf?
  split
  · rename_i hkind
    simp [Node.isOutput, hkind] at h
  · rfl

/-- Besides the advisories, the report on an accepted index lists the numbers at boolean outputs. -/
theorem Index.Accepted.validate_without_orphans {config : Config} {index : Index}
    (h : index.Accepted config) (hc : config.Accepted) (hi : index.Sound)
    (houtputs : index.outputs ≠ []) :
    (index.validate config).filter (fun d => d.problem ≠ .orphanNode) =
      Validation.typeMismatches index := by
  have horphans : (orphans index).filter (fun d => d.problem ≠ .orphanNode) = [] :=
    List.filter_eq_nil_iff.2 fun d hd => by
      simp [problem_of_mem_report (show d ∈ report config index .orphanNode from hd)]
  have htypes : (Validation.typeMismatches index).filter (fun d => d.problem ≠ .orphanNode) =
      Validation.typeMismatches index :=
    List.filter_eq_self.2 fun d hd => by
      simp [problem_of_mem_report (show d ∈ report config index .typeMismatch from hd)]
  rw [h.validate_eq hc hi houtputs, List.filter_append, horphans, htypes, List.nil_append]

namespace Index.Image

variable {keep : Vertex → Bool} {φ : Vertex → Vertex} {index index' : Index}
  (h : index.Image keep φ index')

include h

/-- The numbers at boolean outputs are reported alike for the image, for every output is kept. -/
theorem typeMismatches (hi : index.Sound) (hnode : ∀ v, (φ v).node = v.node) :
    Validation.typeMismatches index' = Validation.typeMismatches index := by
  rw [typeMismatches_eq, h.wires, List.filterMap_map, List.filterMap_filter]
  refine List.filterMap_congr fun w hw => ?_
  cases hkeep : keep w.target with
  | true =>
    exact typeMismatchOf?_congr rfl (hnode _) (hnode _)
  | false =>
    have houtput : w.target.node.isOutput = false := by
      refine Bool.eq_false_iff.2 fun houtput => ?_
      rw [h.outputs _ (hi.target_mem_vertices hw) houtput] at hkeep
      cases hkeep
    rw [typeMismatchOf?_eq_none houtput]
    rfl

end Index.Image

/-! ## Emission of the useful part -/

/-- What is left of a graph without the nodes that feed no output compiles like the graph. -/
structure Graph.CompilesAsRestricted (config : Config) (g part : Graph) : Prop where
  /-- Source comes out. -/
  isEmitted : (part.compile config).isEmitted = true
  /-- The source is the same. -/
  code_eq : (part.compile config).code = (g.compile config).code
  /-- The constraints and the time are the same. -/
  estimate_eq : (part.compile config).metrics.estimate = (g.compile config).metrics.estimate
  /-- The digest is the same. -/
  digest_eq : (part.compile config).digest? = (g.compile config).digest?
  /-- The diagnostics are the same but for the advisories about nodes that take no part. -/
  diagnostics_eq : (part.compile config).diagnostics =
    (g.compile config).diagnostics.filter fun d => d.problem ≠ .orphanNode

namespace Graph

variable {config : Config} {g : Graph} {keep : String → Bool} {σ : Equiv.Perm Nat}

section

variable (ha : g.index.Accepted config)
  (hkeep : ∀ node ∈ g.nodes, keep node.id = true ↔ g.IsUseful node.id)
  (hvertices : (g.restrict keep).vertices =
    (g.vertices.filter fun v => keep v.id).map (Vertex.move σ))

include ha hkeep hvertices

/-- What is kept after pruning is emitted as before. -/
theorem emits_restrict (hc : config.Accepted) {order : LinearOrder}
    (horder : g.linearize = .ok order) {s : Emission}
    (hs : Emits config g.index order.pruned.vertices s) :
    Emits config (g.restrict keep).index (order.pruned.vertices.map (Vertex.move σ))
      (s.move σ) := by
  have hi := g.index_sound
  have hids := nodup_ids_of_accepted ha
  have himage := image_restrict hids ha.links hkeep hvertices
  obtain ⟨hindex, hperm, hordered⟩ := Index.linearize_spec hi horder
  refine hs.move hc ha (fun v hv => hordered.owners v (List.mem_filter.1 hv).1) fun v hv => ?_
  obtain ⟨hv, huseful⟩ := List.mem_filter.1 hv
  have hmem : v ∈ g.index.vertices := hperm.subset hv
  rw [List.contains_iff_mem, hindex] at huseful
  have hkept := (himage.mem_useful_image hi (g.restrict keep).index_sound hmem huseful).1
  rw [incoming_restrict hids ha.links hkeep hvertices hmem hkept]

/-- No advisory is left about nodes that take no part. -/
theorem orphans_restrict (hc : config.Accepted) : orphans (g.restrict keep).index = [] := by
  have hi := g.index_sound
  have hi' := (g.restrict keep).index_sound
  have hids := nodup_ids_of_accepted ha
  have himage := image_restrict hids ha.links hkeep hvertices
  refine List.filterMap_eq_nil_iff.2 fun v' hv' => ?_
  rw [Option.map_eq_none_iff, (himage.accepted hi hi' ha).orphanMessage?_eq_none_iff hc hi' hv']
  obtain ⟨v, hv, hkept, rfl⟩ := himage.mem_vertices.1 (Index.mem_vertices_of_mem_owners hv')
  have howner : v ∈ g.index.owners := by rwa [Index.owners_eq_vertices himage.nodup_ids]
  rw [himage.mem_useful_iff hi hi' hv, ← isUseful_iff hids howner]
  exact (hkeep _ (g.node_mem_of_mem_vertices hv)).1 hkept

end

/-- Taking out the nodes that feed no output does not change what comes out. -/
theorem compilesAsRestricted_of_hasFatal (config : Config) (hc : config.check = .ok ()) (g : Graph)
    (h : hasFatal (g.validate config) = false) (keep : String → Bool)
    (hkeep : ∀ node ∈ g.nodes, keep node.id = true ↔ g.LeadsToOutput node.id) :
    g.CompilesAsRestricted config (g.restrict keep) := by
  have hc := Config.accepted_of_check hc
  have hi := g.index_sound
  have hi' := (g.restrict keep).index_sound
  have ha := accepted_of_hasFatal hi h
  have hkeep : ∀ node ∈ g.nodes, keep node.id = true ↔ g.IsUseful node.id := fun node hnode =>
    (hkeep node hnode).trans (isUseful_iff_leadsToOutput ha.links).symm
  have hids := nodup_ids_of_accepted ha
  obtain ⟨σ, hvertices⟩ := exists_vertices_restrict hids keep
  have himage := image_restrict hids ha.links hkeep hvertices
  have h' : hasFatal ((g.restrict keep).validate config) = false :=
    himage.hasFatal_validate hi hi' hc h
  have hemitted := g.emitted_of_hasFatal hc h
  have hemitted' := (g.restrict keep).emitted_of_hasFatal hc h'
  obtain ⟨order, horder⟩ := Index.exists_linearize hi ha.acyclic ha.unique
  obtain ⟨order', horder', hindex', hpruned⟩ := himage.exists_pruned hi hi' horder
  obtain ⟨s, hs, hcode⟩ := exists_emits_pruned hc h horder
  have hs' := emits_restrict ha hkeep hvertices hc horder hs
  rw [← hpruned, ← hindex'] at hs'
  have hcode' : ((g.restrict keep).compile config).code = (g.compile config).code :=
    (hemitted'.code_eq_text horder' (emitUnit_eq_ok.2 ⟨_, hs', rfl⟩)).trans hcode.symm
  exact
    { isEmitted := (isEmitted_compile hc).2 h'
      code_eq := hcode'
      estimate_eq := by
        rw [hemitted.estimate_eq_ofNodes horder, hemitted'.estimate_eq_ofNodes horder', hpruned,
          List.map_map]
        rfl
      digest_eq := by rw [hemitted.digest_eq, hemitted'.digest_eq, hcode']
      diagnostics_eq := by
        have hfilter : (g.validate config).filter (fun d => d.problem ≠ .orphanNode) =
            typeMismatches g.index :=
          ha.validate_without_orphans hc hi (outputs_ne_nil hi h)
        have hvalidate' : (g.restrict keep).validate config =
            orphans (g.restrict keep).index ++ typeMismatches (g.restrict keep).index :=
          (himage.accepted hi hi' ha).validate_eq hc hi' (outputs_ne_nil hi' h')
        rw [hemitted.diagnostics_eq, hemitted'.diagnostics_eq, hfilter, hvalidate',
          orphans_restrict ha hkeep hvertices hc, himage.typeMismatches hi fun _ => rfl,
          List.nil_append] }

/-- The stragglers without the input and the sum that feed no output. -/
theorem compilesAsRestricted_stragglers :
    ({} : Config).check = .ok () ∧ hasFatal (stragglers.validate {}) = false ∧
      ∃ keep : String → Bool,
        (∀ node ∈ stragglers.nodes, keep node.id = true ↔ stragglers.LeadsToOutput node.id) ∧
        (stragglers.restrict keep).nodes = Exhibit.rangeVerification.graph.nodes ∧
        stragglers.CompilesAsRestricted {} (stragglers.restrict keep) := by
  have hfatal := hasFatal_stragglers
  have ha := accepted_of_hasFatal stragglers.index_sound hfatal
  have hids := nodup_ids_of_accepted ha
  let keep : String → Bool := fun id => id != "spare" && id != "twice"
  have hkeep : ∀ node ∈ stragglers.nodes,
      keep node.id = true ↔ stragglers.LeadsToOutput node.id := by
    have hall : (stragglers.index.owners.all fun v =>
        keep v.id == stragglers.index.useful.contains v.position) = true := by cbv
    intro node hnode
    obtain ⟨v, hv, rfl⟩ := exists_owner_of_nodup hids hnode
    have heq := beq_iff_eq.1 (List.all_eq_true.1 hall v hv)
    rw [← isUseful_iff_leadsToOutput ha.links, show v.node.id = v.id from rfl,
      isUseful_iff hids hv, heq, List.contains_iff_mem]
  exact ⟨rfl, hfatal, keep, hkeep, by decide,
    compilesAsRestricted_of_hasFatal {} rfl stragglers hfatal keep hkeep⟩

end Graph

end CircuitGraph
