import CircuitGraph.Proofs.Circom.Reorder
import CircuitGraph.Proofs.Compile.Gating
import CircuitGraph.Proofs.Graph.Path
import CircuitGraph.Proofs.Validation.Reorder

/-!
# Compilation does not depend on the order of listing

An editor lists nodes and edges in the order in which they were made, and every stage walks along
these lists: names are looked up in the first node that fits, vertices are placed and emitted one
after the other, identifiers are claimed as they come. `Graph.compilesAlike_of_perm` says that
nothing of it shows: when the nodes and the edges are listed in another order, the same source comes
out with the same metrics, or none does, and the diagnostics are the same but for those about
cycles.

With distinct ids this is put together from the stages, each of which keeps its result up to the
permutation of the positions (`Index.Reordered`). A shared id blocks the compilation in every order,
but which nodes it leaves without edges depends on the order, and with it the other diagnostics.
-/

namespace CircuitGraph

open CircuitGraph.Circom CircuitGraph.Validation

/-- What two graphs have in common that differ only in the order of listing. -/
structure Graph.CompilesAlike (config : Config) (g g' : Graph) : Prop where
  /-- Source comes out of both or of neither. -/
  isEmitted_iff : (g.compile config).isEmitted = true ↔ (g'.compile config).isEmitted = true
  /-- The sources are the same. -/
  code_eq : (g.compile config).isEmitted = true →
    (g.compile config).code = (g'.compile config).code
  /-- The sizes and the estimates for the sources are the same. -/
  metrics_eq : (g.compile config).isEmitted = true →
    (g.compile config).metrics = (g'.compile config).metrics
  /-- With distinct ids each diagnostic that is not about a cycle is shown equally often. -/
  diagnostics_perm : (g.nodes.map Node.id).Nodup →
    ((g.compile config).diagnostics.filter fun d => d.problem ≠ .cycleDetected).Perm
      ((g'.compile config).diagnostics.filter fun d => d.problem ≠ .cycleDetected)
  /-- With distinct ids a cycle is shown in both orders or in neither. -/
  cycle_iff : (g.nodes.map Node.id).Nodup →
    ((∃ d ∈ (g.compile config).diagnostics, d.problem = .cycleDetected) ↔
      ∃ d ∈ (g'.compile config).diagnostics, d.problem = .cycleDetected)

variable {config : Config} {g g' : Graph}

/-- The ids of a graph without fatal diagnostics are distinct. -/
theorem Graph.nodup_ids_of_hasFatal (h : hasFatal (g.validate config) = false) :
    (g.nodes.map Node.id).Nodup :=
  nodup_ids_of_accepted (accepted_of_hasFatal g.index_sound h)

namespace Index.Reordered

variable {σ : Equiv.Perm Nat} (h : g.index.Reordered σ g'.index)

include h

/-- Without fatal diagnostics there is a linear order in which what feeds an output is the same
nodes, emitted as the same unit. -/
theorem exists_order (hc : config.Accepted) (hfatal : hasFatal (g.validate config) = false)
    {order : LinearOrder} {u : SourceUnit} (horder : g.linearize = .ok order)
    (hu : emitUnit config order.pruned = .ok u) :
    ∃ order', g'.linearize = .ok order' ∧ emitUnit config order'.pruned = .ok u ∧
      order'.pruned.vertices.map Vertex.node = order.pruned.vertices.map Vertex.node := by
  have hi := g.index_sound
  have hi' := g'.index_sound
  obtain ⟨hindex, -, hordered⟩ := Index.linearize_spec hi horder
  obtain ⟨s, hs, hunit⟩ := emitUnit_eq_ok.1 hu
  have hmoved := h.pruned hi hi' order.vertices
  rw [← hindex] at hmoved
  have hs' : Emits config g'.index (order.pruned.vertices.map (Vertex.move σ)) (s.move σ) := by
    refine Emits.move hc (accepted_of_hasFatal hi hfatal) ?_ ?_ fun v _ => h.incoming v.position
    · rwa [← hindex]
    · exact fun v hv => hordered.owners v (List.mem_filter.1 hv).1
  refine ⟨_, h.linearize hi hi' horder, emitUnit_eq_ok.2 ⟨s.move σ, ?_, hunit⟩, ?_⟩
  · rw [hmoved]
    exact hs'
  · rw [hmoved, List.map_map]
    rfl

/-- Without fatal diagnostics the same source comes out with the same estimate. -/
theorem output_eq (hc : config.Accepted) (hfatal : hasFatal (g.validate config) = false) :
    (g.compile config).code = (g'.compile config).code ∧
      (g.compile config).metrics.estimate = (g'.compile config).metrics.estimate := by
  have hfatal' : hasFatal (g'.validate config) = false :=
    (h.hasFatal_validate g.index_sound g'.index_sound).symm.trans hfatal
  have hemitted := g.emitted_of_hasFatal hc hfatal
  have hemitted' := g'.emitted_of_hasFatal hc hfatal'
  obtain ⟨order, u, -, horder, hu, -⟩ := exists_order_of_hasFatal hc hfatal
  obtain ⟨order', horder', hu', hsame⟩ := h.exists_order hc hfatal horder hu
  constructor
  · rw [hemitted.code_eq_text horder hu, hemitted'.code_eq_text horder' hu']
  · -- the same nodes have the same estimate
    rw [hemitted.estimate_eq_ofNodes horder, hemitted'.estimate_eq_ofNodes horder', hsame]

end Index.Reordered

/-- A fatal diagnostic is reported in every order of listing or in none. -/
theorem Graph.hasFatal_validate_of_perm (hnodes : g.nodes.Perm g'.nodes)
    (hedges : g.edges.Perm g'.edges) :
    hasFatal (g.validate config) = hasFatal (g'.validate config) := by
  by_cases hids : (g.nodes.map Node.id).Nodup
  · obtain ⟨σ, h⟩ := exists_reordered hnodes hedges hids
    exact h.hasFatal_validate g.index_sound g'.index_sound
  · -- a shared id is fatal in every order
    have hids' : ¬ (g'.nodes.map Node.id).Nodup := by
      rwa [← (hnodes.map Node.id).nodup_iff]
    have hshared : ∀ {g : Graph}, ¬ (g.nodes.map Node.id).Nodup →
        hasFatal (g.validate config) = true := fun hids =>
      eq_true_of_ne_false fun h => hids (nodup_ids_of_hasFatal h)
    rw [hshared hids, hshared hids']

/-- Source that comes out is the same in every order of listing, with the same estimate. -/
theorem Graph.output_eq_of_perm (hc : config.Accepted) (hnodes : g.nodes.Perm g'.nodes)
    (hedges : g.edges.Perm g'.edges) (hemitted : (g.compile config).isEmitted = true) :
    (g.compile config).code = (g'.compile config).code ∧
      (g.compile config).metrics.estimate = (g'.compile config).metrics.estimate := by
  have hfatal := (isEmitted_compile hc).1 hemitted
  obtain ⟨σ, h⟩ := exists_reordered hnodes hedges (nodup_ids_of_hasFatal hfatal)
  exact h.output_eq hc hfatal

/-- Compilation does not depend on the order in which nodes and edges are listed. -/
theorem Graph.compilesAlike_of_perm (config : Config) (hc : config.check = .ok ()) (g g' : Graph)
    (hnodes : g.nodes.Perm g'.nodes) (hedges : g.edges.Perm g'.edges) :
    g.CompilesAlike config g' := by
  have hc := Config.accepted_of_check hc
  have hi := g.index_sound
  have hi' := g'.index_sound
  exact
    { isEmitted_iff := by
        rw [isEmitted_compile hc, isEmitted_compile hc, hasFatal_validate_of_perm hnodes hedges]
      code_eq := fun hemitted => (output_eq_of_perm hc hnodes hedges hemitted).1
      metrics_eq := by
        intro hemitted
        have hestimate := (output_eq_of_perm hc hnodes hedges hemitted).2
        rw [g.metrics_compile, g'.metrics_compile, metrics, metrics, hnodes.length_eq,
          hedges.length_eq, hestimate]
      diagnostics_perm := by
        intro hids
        obtain ⟨σ, h⟩ := exists_reordered hnodes hedges hids
        rw [diagnostics_compile hc, diagnostics_compile hc]
        exact h.perm_filter_validate hi hi'
      cycle_iff := by
        intro hids
        obtain ⟨σ, h⟩ := exists_reordered hnodes hedges hids
        have hreport : report config g.index .cycleDetected = [] ↔
            report config g'.index .cycleDetected = [] := h.cyclesDetected_eq_nil_iff hi hi'
        rw [diagnostics_compile hc, diagnostics_compile hc, validate, validate,
          exists_mem_validate_iff, exists_mem_validate_iff, ne_eq, ne_eq, hreport] }

/-- The gallery's range check, listed backwards. -/
theorem Graph.compilesAlike_reversed :
    let g := Exhibit.rangeVerification.graph
    let reversed : Graph := ⟨g.nodes.reverse, g.edges.reverse⟩
    ({} : Config).check = .ok () ∧ g.nodes.Perm reversed.nodes ∧ g.edges.Perm reversed.edges ∧
      (g.compile {}).isEmitted = true ∧ (reversed.compile {}).isEmitted = true ∧
      g.CompilesAlike {} reversed := by
  have hnodes := (List.reverse_perm Exhibit.rangeVerification.graph.nodes).symm
  have hedges := (List.reverse_perm Exhibit.rangeVerification.graph.edges).symm
  have hfatal : hasFatal (Exhibit.rangeVerification.graph.validate {}) = false :=
    Exhibit.hasFatal_rangeVerification rfl
  have hemitted := (isEmitted_compile (Config.accepted_of_check rfl)).2 hfatal
  have halike := compilesAlike_of_perm {} rfl Exhibit.rangeVerification.graph
    ⟨Exhibit.rangeVerification.graph.nodes.reverse,
      Exhibit.rangeVerification.graph.edges.reverse⟩ hnodes hedges
  exact ⟨rfl, hnodes, hedges, hemitted, halike.isEmitted_iff.1 hemitted, halike⟩

end CircuitGraph
