import CircuitGraph.Validation.Check
import Mathlib.Data.List.Basic

/-!
# Which check reports what

Each check reports one kind of problem, and the checks run in the order in which the kinds are
listed (`validate_eq_flatMap`). So the diagnostics of a kind are those of its check
(`filter_validate`), and what is to be said of the whole report can be said check by check.
-/

namespace CircuitGraph.Validation

/-- The diagnostics of the check for a kind of problem. -/
def report (config : Config) (index : Index) : Problem → List Diagnostic
  | .duplicateId => duplicateIds index
  | .danglingEdge => danglingEdges index
  | .cycleDetected => cyclesDetected index
  | .orphanNode => orphans index
  | .arityMismatch => arityMismatches index
  | .missingParameter => parameters config index
  | .noOutputReachable => unreachableOutput index
  | .typeMismatch => typeMismatches index

variable {config : Config} {index : Index}

/-- The checks run in the order in which the kinds of problems are listed. -/
theorem validate_eq_flatMap (config : Config) (index : Index) :
    index.validate config = Problem.all.flatMap (report config index) := by
  simp [Index.validate, Problem.all, report]

/-- What a check reports is of its kind and is found at a node, in the graph as a whole, or at an
edge of the graph. -/
theorem form_of_mem_report {problem : Problem} {d : Diagnostic}
    (h : d ∈ report config index problem) :
    (∃ id message, d = .atNode problem id message) ∨ (∃ message, d = .ofGraph problem message) ∨
      ∃ edge message, d = .atEdge problem edge.id message ∧
        (edge ∈ index.links.map Link.edge ∨ edge ∈ index.wires.map Wire.edge) := by
  cases problem with
  | duplicateId =>
    obtain ⟨id, -, rfl⟩ := List.mem_map.1 h
    exact .inl ⟨_, _, rfl⟩
  | danglingEdge =>
    obtain ⟨link, hlink, hd⟩ := List.mem_filterMap.1 h
    obtain ⟨fault, -, rfl⟩ := Option.map_eq_some_iff.1 hd
    exact .inr (.inr ⟨_, _, rfl, .inl (List.mem_map_of_mem hlink)⟩)
  | cycleDetected =>
    obtain ⟨cycle, -, hd⟩ := List.mem_filterMap.1 h
    cases cycle with
    | nil => cases hd
    | cons first rest =>
      cases hd
      exact .inl ⟨_, _, rfl⟩
  | orphanNode =>
    obtain ⟨v, -, hd⟩ := List.mem_filterMap.1 h
    obtain ⟨message, -, rfl⟩ := Option.map_eq_some_iff.1 hd
    exact .inl ⟨_, _, rfl⟩
  | arityMismatch =>
    obtain ⟨v, -, hd⟩ := List.mem_filterMap.1 h
    unfold arityOf? at hd
    split at hd
    · cases hd
    · dsimp only at hd
      split at hd
      · cases hd
      · cases hd
        exact .inl ⟨_, _, rfl⟩
  | missingParameter =>
    obtain ⟨v, -, hd⟩ := List.mem_filterMap.1 h
    unfold parameterOf? at hd
    split at hd
    · split at hd
      · cases hd
      · cases hd
        exact .inl ⟨_, _, rfl⟩
    · cases hd
  | noOutputReachable =>
    obtain ⟨message, -, rfl⟩ := Option.map_eq_some_iff.1 (Option.mem_toList.1 h)
    exact .inr (.inl ⟨_, rfl⟩)
  | typeMismatch =>
    obtain ⟨w, hw, hd⟩ := List.mem_filterMap.1 h
    unfold typeMismatchOf? at hd
    split at hd
    · split at hd
      · cases hd
        exact .inr (.inr ⟨_, _, rfl, .inr (List.mem_map_of_mem hw)⟩)
      · cases hd
    · cases hd

/-- What a check reports is of its kind. -/
theorem problem_of_mem_report {problem : Problem} {d : Diagnostic}
    (h : d ∈ report config index problem) : d.problem = problem := by
  rcases form_of_mem_report h with ⟨_, _, rfl⟩ | ⟨_, rfl⟩ | ⟨_, _, rfl, -⟩
  all_goals rfl

/-- The diagnostics of a kind are those of its check. -/
theorem filter_validate (config : Config) (index : Index) (problem : Problem) :
    (index.validate config).filter (fun d => d.problem = problem) =
      report config index problem := by
  have hreport : ∀ kind, (report config index kind).filter (fun d => d.problem = problem) =
      if kind = problem then report config index kind else [] := by
    intro kind
    split
    · rename_i heq
      exact List.filter_eq_self.2 fun d hd => by simp [problem_of_mem_report hd, heq]
    · rename_i hne
      exact List.filter_eq_nil_iff.2 fun d hd => by simp [problem_of_mem_report hd, hne]
  rw [validate_eq_flatMap, List.filter_flatMap, funext hreport]
  cases problem <;> simp [Problem.all]

/-- A fatal diagnostic is reported when one of the checks reports one. -/
theorem hasFatal_validate_eq (config : Config) (index : Index) :
    hasFatal (index.validate config) =
      Problem.all.any fun problem => hasFatal (report config index problem) := by
  rw [hasFatal, validate_eq_flatMap, List.any_flatMap]
  rfl

/-- Nothing fatal is reported when none of the checks reports anything fatal. -/
theorem hasFatal_validate_eq_false
    (h : ∀ problem, hasFatal (report config index problem) = false) :
    hasFatal (index.validate config) = false := by
  rw [hasFatal_validate_eq, List.any_eq_false]
  intro problem _
  rw [h problem]
  exact Bool.false_ne_true

/-- A diagnostic of the whole report is one of the check for its kind. -/
theorem mem_validate_iff {d : Diagnostic} :
    d ∈ index.validate config ↔ d ∈ report config index d.problem := by
  rw [← filter_validate, List.mem_filter]
  simp

/-- A kind of problem is reported when its check reports something. -/
theorem exists_mem_validate_iff {problem : Problem} :
    (∃ d ∈ index.validate config, d.problem = problem) ↔ report config index problem ≠ [] := by
  rw [← filter_validate, ← List.isEmpty_eq_false_iff, ← Bool.not_eq_true, List.isEmpty_iff,
    List.filter_eq_nil_iff]
  simp

end CircuitGraph.Validation
