import CircuitGraph.Proofs.Order.Reorder
import CircuitGraph.Proofs.Order.Verdict

/-!
# Validation does not depend on the order of listing

On two indexes that differ only in the order of listing, each check but one reports the same
diagnostics up to their order (`Index.Reordered.perm_report`): whatever it reads of a vertex, a link
or a wire is the same for the moved one. The search for cycles is the exception. Which cycles it
closes, and at which vertex it says that they begin, depends on where it starts; but it reports one
on both sides or on neither, because the same vertices are left behind by the ordering.
-/

namespace CircuitGraph

open CircuitGraph.Validation

variable {σ : Equiv.Perm Nat} {config : Config}

namespace Index.Reordered

variable {index index' : Index} (h : index.Reordered σ index')

include h

/-- What is collected of the owners is the same when it is the same for a moved vertex. -/
theorem filterMap_owners {β : Type} {f f' : Vertex → Option β} (hf : ∀ v, f' (v.move σ) = f v) :
    (index.owners.filterMap f).Perm (index'.owners.filterMap f') := by
  have hperm := h.owners.filterMap f'
  rw [List.filterMap_map] at hperm
  simpa only [Function.comp_def, hf] using hperm

/-- The message about an edge is the same. -/
theorem faultMessage_eq (e : Edge) (fault : LinkFault) :
    faultMessage index' e fault = faultMessage index e fault := by
  cases fault with
  | missingSource => rfl
  | missingTarget => rfl
  | unknownSourcePort =>
    simp only [faultMessage, h.lookup?, Option.any_map, Vertex.node_move]
  | unknownTargetPort =>
    simp only [faultMessage, h.lookup?, Option.map_map, Function.comp_def, Vertex.node_move]

/-- Dangling edges are reported alike, whatever the order of nodes and edges. -/
theorem perm_danglingEdges : (danglingEdges index).Perm (danglingEdges index') := by
  have hperm := h.links.filterMap fun k => k.2.map fun fault =>
    Diagnostic.atEdge .danglingEdge k.1.id (faultMessage index k.1 fault)
  rw [List.filterMap_map, List.filterMap_map] at hperm
  simpa only [danglingEdges, Function.comp_def, h.faultMessage_eq] using hperm

/-- Mismatches of types are reported alike, whatever the order of nodes and edges. -/
theorem perm_typeMismatches : (typeMismatches index).Perm (typeMismatches index') := by
  have hperm := h.wires.filterMap fun k => typeMismatchOf? ⟨0, k.1, k.2.1, k.2.2⟩
  rw [List.filterMap_map, List.filterMap_map] at hperm
  exact hperm

/-- The report on the ports of a moved vertex is the same. -/
theorem arityOf?_move (v : Vertex) : arityOf? index' (v.move σ) = arityOf? index v := by
  have hwired := (h.incoming v.position).map fun k => k.1.targetPort
  rw [List.map_map, List.map_map] at hwired
  simp only [arityOf?, Vertex.node_move, Vertex.id_move, Vertex.position_move]
  -- only the number of the ports and how often each occurs enter the report
  have hlength := hwired.length_eq
  have hcount := fun port => hwired.count_eq port
  simp only [Function.comp_def] at hlength hcount
  simp only [hlength, hcount]
  rfl

/-- The reason why a moved vertex takes no part is the same. -/
theorem orphanMessage?_move (hi : index.Sound) (hi' : index'.Sound) (v : Vertex) :
    orphanMessage? index' index'.fed index'.useful (v.move σ) =
      orphanMessage? index index.fed index.useful v := by
  have hincoming : (index'.incoming (σ v.position)).isEmpty =
      (index.incoming v.position).isEmpty := by
    simpa only [List.isEmpty_map] using (h.incoming v.position).isEmpty_eq.symm
  simp only [orphanMessage?, Vertex.node_move, Vertex.id_move, Vertex.position_move,
    hincoming, h.contains_useful hi hi', h.contains_fed hi hi']

/-- The reason why the graph computes nothing is the same. -/
theorem unreachableMessage?_eq (hi : index.Sound) (hi' : index'.Sound) :
    unreachableMessage? index' = unreachableMessage? index := by
  have hinputs : index'.inputs.isEmpty = index.inputs.isEmpty := by
    simpa only [List.isEmpty_map] using h.inputs.isEmpty_eq.symm
  have houtputs : index'.outputs.isEmpty = index.outputs.isEmpty := by
    simpa only [List.isEmpty_map] using h.outputs.isEmpty_eq.symm
  have hfed : (index'.outputs.any fun v => index'.fed.contains v.position) =
      index.outputs.any fun v => index.fed.contains v.position := by
    rw [← h.outputs.any_eq, List.any_map]
    simp only [Function.comp_def, Vertex.position_move, h.contains_fed hi hi']
  simp only [unreachableMessage?, hinputs, houtputs, hfed]

/-- Cycles are reported on both sides or on neither. -/
theorem cyclesDetected_eq_nil_iff (hi : index.Sound) (hi' : index'.Sound) :
    cyclesDetected index = [] ↔ cyclesDetected index' = [] := by
  have hleft := (h.place_owners hi hi').2.isEmpty_eq
  rw [hi.cyclesDetected_eq_nil_iff, hi'.cyclesDetected_eq_nil_iff, ← List.isEmpty_iff,
    ← List.isEmpty_iff, ← hleft, List.isEmpty_map]

/-- Each check but the search for cycles reports the same diagnostics. -/
theorem perm_report (hi : index.Sound) (hi' : index'.Sound) {problem : Problem}
    (hproblem : problem ≠ .cycleDetected) :
    (report config index problem).Perm (report config index' problem) := by
  cases problem with
  | duplicateId =>
    have hnil := hi.duplicateIds_eq_nil_iff.2 (Index.find?_isShadowed h.nodup_ids)
    have hnil' := hi'.duplicateIds_eq_nil_iff.2 (Index.find?_isShadowed h.nodup_ids')
    simp only [report, hnil, hnil', List.Perm.refl]
  | danglingEdge => exact h.perm_danglingEdges
  | cycleDetected => exact absurd rfl hproblem
  | orphanNode => exact h.filterMap_owners fun v => by rw [h.orphanMessage?_move hi hi' v]; rfl
  | arityMismatch => exact h.filterMap_owners h.arityOf?_move
  | missingParameter => exact h.filterMap_owners fun v => rfl
  | noOutputReachable =>
    simp only [report, unreachableOutput, h.unreachableMessage?_eq hi hi', List.Perm.refl]
  | typeMismatch => exact h.perm_typeMismatches

/-- Apart from the cycles the same diagnostics are reported. -/
theorem perm_filter_validate (hi : index.Sound) (hi' : index'.Sound) :
    ((index.validate config).filter fun d => d.problem ≠ .cycleDetected).Perm
      ((index'.validate config).filter fun d => d.problem ≠ .cycleDetected) := by
  rw [validate_eq_flatMap, validate_eq_flatMap, List.filter_flatMap, List.filter_flatMap]
  refine List.Perm.flatMap_left _ fun problem _ => ?_
  by_cases hproblem : problem = .cycleDetected
  · -- every report of a cycle is left out
    have hnil : ∀ index : Index, (report config index problem).filter
        (fun d => d.problem ≠ .cycleDetected) = [] := fun index =>
      List.filter_eq_nil_iff.2 fun d hd => by simp [problem_of_mem_report hd, hproblem]
    rw [hnil, hnil]
  · exact (h.perm_report hi hi' hproblem).filter _

/-- A fatal diagnostic is reported on both sides or on neither. -/
theorem hasFatal_validate (hi : index.Sound) (hi' : index'.Sound) :
    hasFatal (index.validate config) = hasFatal (index'.validate config) := by
  have hreport : ∀ problem, hasFatal (report config index problem) =
      hasFatal (report config index' problem) := by
    intro problem
    by_cases hproblem : problem = .cycleDetected
    · -- a cycle is always fatal, so it matters only whether one is reported
      have hnil : ∀ index : Index,
          hasFatal (cyclesDetected index) = false ↔ cyclesDetected index = [] := fun index =>
        ⟨eq_nil_of_hasFatal fun _ => isFatal_of_mem_cyclesDetected, fun h => by rw [h]; rfl⟩
      rw [hproblem, ← Bool.not_inj_iff, Bool.eq_iff_iff, Bool.not_eq_true', Bool.not_eq_true']
      exact (hnil index).trans ((h.cyclesDetected_eq_nil_iff hi hi').trans (hnil index').symm)
    · exact (h.perm_report hi hi' hproblem).any_eq
  rw [hasFatal_validate_eq, hasFatal_validate_eq]
  exact congrArg _ (funext hreport)

end Index.Reordered

end CircuitGraph
