import CircuitGraph.Compile
import CircuitGraph.Graph.Gallery
import CircuitGraph.Proofs.Circom.Emission
import CircuitGraph.Proofs.Circom.Placeholder
import CircuitGraph.Proofs.Cost.Total
import CircuitGraph.Proofs.Validation.Report

/-!
# Compilation blocks or emits

A compilation ends in one of two ways, and validation alone decides which: `Output.Blocked` when a
diagnostic is fatal, `Output.Emitted` when none is. So the stages behind validation never fail on a
graph that has passed it: the graph has a linear order, each of its vertices that feeds an output is
emitted, and each of them has a cost.
-/

namespace CircuitGraph

open CircuitGraph.Circom CircuitGraph.Digest

/-- A compilation that was blocked by diagnostics, one of which is fatal. -/
structure Output.Blocked (config : Config) (g : Graph) (o : Output) : Prop where
  /-- A diagnostic is fatal. -/
  fatal : hasFatal o.diagnostics = true
  /-- The diagnostics are those of the validation. -/
  diagnostics_eq : o.diagnostics = g.validate config
  /-- The code is the placeholder for them. -/
  code_eq : o.code = placeholder o.diagnostics
  /-- No constraints are reported. -/
  constraints_eq : o.metrics.estimate.constraints = 0
  /-- No time is reported. -/
  time_eq : o.metrics.estimate.time = "unknown"
  /-- There is no digest. -/
  digest_eq : o.digest? = none

/-- A compilation that gave source. -/
structure Output.Emitted (config : Config) (g : Graph) (o : Output) : Prop where
  /-- No diagnostic is fatal. -/
  not_fatal : hasFatal o.diagnostics = false
  /-- The diagnostics are those of the validation. -/
  diagnostics_eq : o.diagnostics = g.validate config
  /-- The graph has a linear order; without the vertices that feed no output the order is emitted,
  and what comes out is the code. -/
  code_eq : ∃ order, g.linearize = .ok order ∧ tryEmit config order.pruned = .ok o.code
  /-- The code is no placeholder. -/
  not_placeholder : isPlaceholder o.code = false
  /-- The constraints of the emitted vertices are counted, and reported with the time for them. -/
  estimate_eq : ∃ order total, g.linearize = .ok order ∧
    config.totalCost? (order.pruned.vertices.map Vertex.node) = some total ∧
    o.metrics.estimate.constraints = total ∧ o.metrics.estimate.time = timeBucket total.toNat
  /-- The digest is that of the code. -/
  digest_eq : o.digest? = some (sourceDigest o.code)

variable {config : Config} {g : Graph}

/-- A node whose parameters resolve has a cost. -/
theorem Config.isSome_nodeCost? {node : Node}
    (h : ∀ gadget params, node.kind = .gadget gadget params →
      ∃ setting, gadget.resolve config params = .ok setting) :
    ∃ cost, config.nodeCost? node = some cost := by
  unfold nodeCost?
  cases hkind : node.kind with
  | gadget gadget params =>
    obtain ⟨setting, hresolve⟩ := h gadget params hkind
    exact ⟨config.settingCost setting, by simp [hresolve]⟩
  | _ => exact ⟨_, rfl⟩

/-- A graph that passes validation has a linear order along which everything that feeds an output
can be emitted and has a cost. -/
theorem exists_order_of_hasFatal (hc : config.Accepted) (h : hasFatal (g.validate config) = false) :
    ∃ order u total, g.linearize = .ok order ∧ emitUnit config order.pruned = .ok u ∧
      config.totalCost? (order.pruned.vertices.map Vertex.node) = some total := by
  have hi := g.index_sound
  have ha := Validation.accepted_of_hasFatal hi h
  obtain ⟨order, horder⟩ := Index.exists_linearize hi ha.acyclic ha.unique
  obtain ⟨hindex, -, hordered⟩ := Index.linearize_spec hi horder
  have hpruned := hordered.pruned hi
  obtain ⟨s, hs⟩ := exists_emits hc hi ha hpruned
  have hu : emitUnit config order.pruned = .ok (.ofFragments config s.fragments) := by
    refine emitUnit_eq_ok.2 ⟨s, ?_, rfl⟩
    simpa only [LinearOrder.pruned, hindex] using hs
  -- the cost of a gadget is defined whenever its parameters resolve
  have hcosts : ∀ node ∈ order.pruned.vertices.map Vertex.node,
      ∃ cost, config.nodeCost? node = some cost := by
    intro node hnode
    obtain ⟨v, hv, rfl⟩ := List.mem_map.1 hnode
    have howner : v ∈ g.index.owners := hordered.owners v (List.mem_filter.1 hv).1
    exact Config.isSome_nodeCost? (ha.resolves v howner)
  obtain ⟨total, htotal⟩ := Config.exists_totalCost? hcosts
  exact ⟨order, _, total, horder, hu, htotal⟩

/-- A compilation with a fatal diagnostic is blocked. -/
theorem Graph.blocked_of_hasFatal (h : hasFatal (g.validate config) = true) :
    (g.compile config).Blocked config g := by
  have hcompile : g.compile config = g.blocked (g.validate config) := by
    rw [Graph.compile]
    exact if_pos h
  rw [hcompile]
  exact
    { fatal := h
      diagnostics_eq := rfl
      code_eq := rfl
      constraints_eq := rfl
      time_eq := rfl
      digest_eq := by
        simp [Output.digest?, Output.isEmitted, Graph.blocked, isPlaceholder_placeholder] }

/-- A compilation without a fatal diagnostic gives source. -/
theorem Graph.emitted_of_hasFatal (hc : config.Accepted)
    (h : hasFatal (g.validate config) = false) : (g.compile config).Emitted config g := by
  obtain ⟨order, u, total, horder, hu, htotal⟩ := exists_order_of_hasFatal hc h
  have hcode : emit config order.pruned (g.validate config) = u.text := by
    have htry := tryEmit_eq_ok.2 ⟨u, hu, rfl⟩
    simp [emit, h, htry]
  have hsource := isPlaceholder_text u
  have hcompile : g.compile config =
      ⟨u.text, g.validate config, g.metrics (.ofConstraints total)⟩ := by
    -- neither of the two early exits is taken
    have hfinish : g.compile config = g.finish config (g.validate config) order := by
      rw [Graph.compile]
      refine (if_neg (fun hfatal => Bool.noConfusion (h.symm.trans hfatal))).trans ?_
      have hlinearize : g.index.linearize = .ok order := horder
      rw [hlinearize]
      rfl
    have hestimate : Estimate.ofOrder config order.pruned (g.validate config) =
        .ofConstraints total := by
      simp [Estimate.ofOrder, Estimate.ofNodes, h, htotal]
    rw [hfinish, Graph.finish, hcode, hsource, hestimate]
    rfl
  rw [hcompile]
  exact
    { not_fatal := h
      diagnostics_eq := rfl
      code_eq := ⟨order, horder, tryEmit_eq_ok.2 ⟨u, hu, rfl⟩⟩
      not_placeholder := hsource
      estimate_eq := ⟨order, total, horder, htotal, rfl, rfl⟩
      digest_eq := by simp [Output.digest?, Output.isEmitted, hsource] }

/-- The code that is emitted is the text of the unit of the linear order. -/
theorem Output.Emitted.code_eq_text {o : Output} (h : o.Emitted config g) {order : LinearOrder}
    {u : SourceUnit} (horder : g.linearize = .ok order)
    (hu : emitUnit config order.pruned = .ok u) : o.code = u.text := by
  obtain ⟨_, heq, htry⟩ := h.code_eq
  cases horder.symm.trans heq
  exact Except.ok.inj (htry.symm.trans (tryEmit_eq_ok.2 ⟨u, hu, rfl⟩))

/-- The estimate for emitted code is that of the vertices that are emitted. -/
theorem Output.Emitted.estimate_eq_ofNodes {o : Output} (h : o.Emitted config g)
    {order : LinearOrder} (horder : g.linearize = .ok order) :
    o.metrics.estimate = .ofNodes config (order.pruned.vertices.map Vertex.node) := by
  obtain ⟨_, total, heq, htotal, hconstraints, htime⟩ := h.estimate_eq
  cases horder.symm.trans heq
  rw [Estimate.ofNodes, htotal]
  calc o.metrics.estimate
      = ⟨o.metrics.estimate.constraints, o.metrics.estimate.time⟩ := rfl
    _ = .ofConstraints total := by rw [hconstraints, htime]; rfl

/-- The diagnostics of a compilation are those of the validation. -/
theorem Graph.diagnostics_compile (hc : config.Accepted) (g : Graph) :
    (g.compile config).diagnostics = g.validate config := by
  cases h : hasFatal (g.validate config) with
  | true => exact (g.blocked_of_hasFatal h).diagnostics_eq
  | false => exact (g.emitted_of_hasFatal hc h).diagnostics_eq

/-- A compilation gives source when no diagnostic is fatal, and only then. -/
theorem Graph.isEmitted_compile (hc : config.Accepted) :
    (g.compile config).isEmitted = true ↔ hasFatal (g.validate config) = false := by
  cases h : hasFatal (g.validate config) with
  | true =>
    rw [Output.isEmitted, (g.blocked_of_hasFatal h).code_eq, isPlaceholder_placeholder]
    decide
  | false =>
    rw [Output.isEmitted, (g.emitted_of_hasFatal hc h).not_placeholder]
    decide

/-- A compilation without a fatal diagnostic gives the text of the unit of the graph. -/
theorem Graph.exists_unit (hc : config.Accepted) (h : hasFatal (g.validate config) = false) :
    ∃ u : SourceUnit, u.OfGraph config g ∧ (g.compile config).code = u.text := by
  obtain ⟨order, horder, hcode⟩ := (g.emitted_of_hasFatal hc h).code_eq
  obtain ⟨u, hu, htext⟩ := tryEmit_eq_ok.1 hcode
  exact ⟨u, ⟨order, horder, hu⟩, htext.symm⟩

/-- The sizes that a compilation shows are those of the graph. -/
theorem Graph.metrics_compile (config : Config) (g : Graph) :
    (g.compile config).metrics = g.metrics (g.compile config).metrics.estimate := by
  have hsizes : ∃ estimate, (g.compile config).metrics = g.metrics estimate := by
    unfold compile
    dsimp only
    split
    · exact ⟨_, rfl⟩
    · split <;> exact ⟨_, rfl⟩
  obtain ⟨estimate, hmetrics⟩ := hsizes
  rw [hmetrics]
  rfl

/-- Along the order of a graph without fatal diagnostics, what is kept is emitted as the code. -/
theorem Graph.exists_emits_pruned (hc : config.Accepted)
    (h : hasFatal (g.validate config) = false) {order : LinearOrder}
    (horder : g.linearize = .ok order) :
    ∃ s, Emits config g.index order.pruned.vertices s ∧
      (g.compile config).code = (SourceUnit.ofFragments config s.fragments).text := by
  obtain ⟨_, u, -, heq, hu, -⟩ := exists_order_of_hasFatal hc h
  cases horder.symm.trans heq
  obtain ⟨hindex, -⟩ := Index.linearize_spec g.index_sound horder
  obtain ⟨s, hs, rfl⟩ := emitUnit_eq_ok.1 hu
  refine ⟨s, ?_, (g.emitted_of_hasFatal hc h).code_eq_text horder hu⟩
  rwa [← hindex]

/-- The gallery's range check passes validation when values of 32 bits can be compared. -/
theorem Exhibit.hasFatal_rangeVerification (h : config.comparatorBits = 32) :
    hasFatal (Exhibit.rangeVerification.graph.validate config) = false := by
  refine Validation.hasFatal_validate_eq_false fun problem => ?_
  cases problem with
  | missingParameter =>
    cases config
    subst h
    rfl
  -- these checks search the graph, and searches are not unfolded by definition
  | cycleDetected | orphanNode | noOutputReachable => cbv
  | _ => rfl

/-- The gallery's tree membership passes validation. -/
theorem Exhibit.hasFatal_merkleMembership :
    hasFatal (Exhibit.merkleMembership.graph.validate {}) = false := by
  refine Validation.hasFatal_validate_eq_false fun problem => ?_
  cases problem with
  | cycleDetected | orphanNode | noOutputReachable => cbv
  | _ => rfl

/-- With an accepted configuration a compilation ends in exactly one of the two ways. -/
theorem Graph.compile_blocked_xor_emitted (config : Config) (hc : config.check = .ok ())
    (g : Graph) :
    ((g.compile config).Blocked config g ∧ ¬ (g.compile config).Emitted config g) ∨
      ((g.compile config).Emitted config g ∧ ¬ (g.compile config).Blocked config g) := by
  -- each way says of the diagnostics what the other one denies
  cases h : hasFatal (g.validate config) with
  | true =>
    have hblocked := g.blocked_of_hasFatal h
    refine .inl ⟨hblocked, fun hemitted => ?_⟩
    exact Bool.noConfusion (hblocked.fatal.symm.trans hemitted.not_fatal)
  | false =>
    have hemitted := g.emitted_of_hasFatal (Config.accepted_of_check hc) h
    refine .inr ⟨hemitted, fun hblocked => ?_⟩
    exact Bool.noConfusion (hblocked.fatal.symm.trans hemitted.not_fatal)

/-- The gallery's range check under the configuration of the editor. -/
theorem Graph.compile_rangeVerification :
    ({} : Config).check = .ok () ∧
      let g := Exhibit.rangeVerification.graph
      ((g.compile {}).Blocked {} g ∧ ¬ (g.compile {}).Emitted {} g) ∨
        ((g.compile {}).Emitted {} g ∧ ¬ (g.compile {}).Blocked {} g) :=
  ⟨rfl, Graph.compile_blocked_xor_emitted {} rfl Exhibit.rangeVerification.graph⟩

end CircuitGraph
