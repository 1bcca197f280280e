import CircuitGraph.Proofs.Compile.Reorder
import CircuitGraph.Proofs.Cost.Total
import CircuitGraph.Proofs.Order.Beside
import CircuitGraph.Proofs.Validation.Participation

/-!
# Two circuits on one canvas do not affect each other

An editor puts everything on one canvas, and every stage of a compilation walks over the whole of
it. `Graph.unaffected_of_apart` says that two graphs which share no id, and no edge of which names a
node of the other, still come out as if each had been alone: each kind of diagnostic but one is
reported for the first graph and then for the second one, the linear order of both shows the order
of either, and what compiles on its own compiles together at the sum of the costs.

The one exception is the check that some input leads to an output: together the graphs pass it when
one of them does.
-/

namespace CircuitGraph

open CircuitGraph.Text CircuitGraph.Validation

/-- What becomes of two graphs on one canvas. -/
structure Graph.Unaffected (config : Config) (g h : Graph) : Prop where
  /-- Of each kind but one, the diagnostics are those of the first graph followed by those of the
  second one. -/
  diagnostics_eq : ∀ problem, problem ≠ .noOutputReachable →
    ((g.beside h).validate config).filter (fun d => d.problem = problem) =
      (g.validate config).filter (fun d => d.problem = problem) ++
        (h.validate config).filter fun d => d.problem = problem
  /-- When both graphs have a linear order, there is one for both, and it shows of the nodes of
  either graph the order of that graph. -/
  exists_order : ∀ left right, g.linearize = .ok left → h.linearize = .ok right →
    ∃ order, (g.beside h).linearize = .ok order ∧
      order.vertices.filter (fun v => v.position < g.nodes.length) = left.vertices ∧
      order.vertices.filter (fun v => g.nodes.length ≤ v.position) =
        right.vertices.map (Vertex.shift g.nodes.length)
  /-- When both graphs compile without fatal diagnostics, so do both together. -/
  not_fatal : hasFatal (g.compile config).diagnostics = false →
    hasFatal (h.compile config).diagnostics = false →
      hasFatal ((g.beside h).compile config).diagnostics = false
  /-- The constraints are then those of both graphs, as far as the largest count goes. -/
  constraints_eq : hasFatal (g.compile config).diagnostics = false →
    hasFatal (h.compile config).diagnostics = false →
      ((g.beside h).compile config).metrics.estimate.constraints.toNat =
        min maxWord ((g.compile config).metrics.estimate.constraints.toNat +
          (h.compile config).metrics.estimate.constraints.toNat)

/-- The constraints of what is emitted are the costs of the emitted vertices, clamped. -/
theorem Output.Emitted.exists_costSum {config : Config} {g : Graph} {o : Output}
    (h : o.Emitted config g) : ∃ order, g.linearize = .ok order ∧
      o.metrics.estimate.constraints.toNat =
        min (config.costSum (order.pruned.vertices.map Vertex.node)) maxWord := by
  obtain ⟨order, total, horder, htotal, hconstraints, -⟩ := h.estimate_eq
  refine ⟨order, horder, ?_⟩
  rw [hconstraints, Config.eq_clamp_of_totalCost? htotal, Count.toNat_clamp]

namespace Graph.Apart

variable {config : Config} {g h : Graph} (ha : g.Apart h)

include ha

/-- An output of the first graph that an input feeds is one of both together. -/
theorem unreachableOutput_eq_nil (hleft : hasFatal (g.validate config) = false) :
    unreachableOutput (g.beside h).index = [] := by
  have hi := (g.beside h).index_sound
  obtain ⟨v, hv, hfed⟩ := exists_output_of_hasFatal g.index_sound hleft
  obtain ⟨howner, hkind⟩ := List.mem_filter.1 hv
  have hvertex := Index.mem_vertices_of_mem_owners howner
  have hv' : v ∈ (g.beside h).index.outputs :=
    List.mem_filter.2 ⟨(ha.left_part.shift_mem_owners hvertex).2 howner, hkind⟩
  have hfed' := (ha.left_part.mem_fed_iff hi g.index_sound hvertex).2 hfed
  rw [unreachableOutput, hi.unreachableMessage?_eq_none_iff.2 ⟨v, hv', hfed'⟩]
  rfl

/-- Two graphs without fatal diagnostics have none together. -/
theorem hasFatal_validate (hleft : hasFatal (g.validate config) = false)
    (hright : hasFatal (h.validate config) = false) :
    hasFatal ((g.beside h).validate config) = false := by
  have hreach := ha.unreachableOutput_eq_nil hleft
  rw [Graph.validate, hasFatal_validate_eq, List.any_eq_false] at hleft hright ⊢
  intro problem hproblem
  by_cases hkind : problem = .noOutputReachable
  · rw [hkind, Validation.report, hreach]
    exact Bool.false_ne_true
  · rw [ha.report config hkind, hasFatal, List.any_append, Bool.or_eq_true, not_or]
    exact ⟨hleft problem hproblem, hright problem hproblem⟩

/-- What is emitted for both graphs is, up to the order, what is emitted for the first one and what
is emitted for the second one. -/
theorem perm_pruned {left right order : LinearOrder} (hleft : g.linearize = .ok left)
    (hright : h.linearize = .ok right) (horder : (g.beside h).linearize = .ok order) :
    (left.pruned.vertices.map Vertex.node ++ right.pruned.vertices.map Vertex.node).Perm
      (order.pruned.vertices.map Vertex.node) := by
  have hi := (g.beside h).index_sound
  have hkept : (fun v : Vertex => !decide (v.position < g.nodes.length)) =
      fun v => decide (g.nodes.length ≤ v.position) := by
    funext v
    rw [← decide_not, decide_eq_decide, Nat.not_lt]
  rw [ha.left_part.map_node_pruned hi g.index_sound horder hleft,
    ha.right_part.map_node_pruned hi h.index_sound horder hright, ← hkept, ← List.map_append]
  exact (List.filter_append_perm _ _).map _

end Graph.Apart

/-- Two graphs that have nothing to do with each other do not affect each other on one canvas. -/
theorem Graph.unaffected_of_apart (config : Config) (hc : config.check = .ok ()) (g h : Graph)
    (ha : g.Apart h) : Graph.Unaffected config g h where
  diagnostics_eq problem hproblem := by
    simp only [Graph.validate, filter_validate]
    exact ha.report config hproblem
  exists_order left right hleft hright := ha.exists_linearize hleft hright
  not_fatal := by
    have hc := Config.accepted_of_check hc
    simp only [Graph.diagnostics_compile hc]
    exact ha.hasFatal_validate
  constraints_eq := by
    have hc := Config.accepted_of_check hc
    simp only [Graph.diagnostics_compile hc]
    intro hleft hright
    obtain ⟨left, hleftOrder, hleftCount⟩ := (g.emitted_of_hasFatal hc hleft).exists_costSum
    obtain ⟨right, hrightOrder, hrightCount⟩ := (h.emitted_of_hasFatal hc hright).exists_costSum
    obtain ⟨order, horder, hcount⟩ :=
      ((g.beside h).emitted_of_hasFatal hc (ha.hasFatal_validate hleft hright)).exists_costSum
    have hcosts : config.costSum _ = config.costSum _ :=
      Config.costSum_of_perm (ha.perm_pruned hleftOrder hrightOrder horder)
    rw [Config.costSum_append] at hcosts
    rw [hcount, hleftCount, hrightCount, ← hcosts]
    omega

/-- The gallery's balance proof and its range check on one canvas. -/
theorem Graph.unaffected_gallery :
    let g := Exhibit.balanceProof.graph
    let h := Exhibit.rangeVerification.graph
    ({} : Config).check = .ok () ∧ g.Apart h ∧ hasFatal (g.compile {}).diagnostics = false ∧
      hasFatal (h.compile {}).diagnostics = false ∧ Graph.Unaffected {} g h := by
  have hapart : Exhibit.balanceProof.graph.Apart Exhibit.rangeVerification.graph :=
    { ids := by decide
      left_edges := by decide
      right_edges := by decide }
  have hleft : hasFatal (Exhibit.balanceProof.graph.validate {}) = false := by cbv
  have hright : hasFatal (Exhibit.rangeVerification.graph.validate {}) = false :=
    Exhibit.hasFatal_rangeVerification rfl
  rw [← Graph.diagnostics_compile (Config.accepted_of_check rfl)] at hleft hright
  exact ⟨rfl, hapart, hleft, hright, Graph.unaffected_of_apart {} rfl _ _ hapart⟩

end CircuitGraph
