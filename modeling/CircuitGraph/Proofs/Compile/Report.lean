import CircuitGraph.Proofs.Json.Pretty
import CircuitGraph.Report

/-!
# What a report says

A report is made of texts and natural numbers, so reading what has been written gives it back
(`Output.parse_report`). Its code, diagnostics and metrics are those of the compilation
(`Output.record?_report`), and they tell it from every other one (`Output.members_injective`).
-/

namespace CircuitGraph

open CircuitGraph.Json

/-! ## Reading a report -/

/-- A diagnostic is made of texts. -/
theorem Diagnostic.isTextual_toJson (d : Diagnostic) : d.toJson.isTextual = true := by
  obtain ⟨problem, severity, nodeId, edgeId, message⟩ := d
  cases nodeId <;> cases edgeId <;> rfl

/-- Metrics are made of texts and natural numbers. -/
theorem Metrics.isTextual_toJson (m : Metrics) : m.toJson.isTextual = true := by
  refine Value.membersAreTextual_map _ fun member hmember => ?_
  simp only [Estimate.members, List.mem_cons, List.not_mem_nil, or_false] at hmember
  rcases hmember with rfl | rfl | rfl | rfl
  · exact Value.isTextual_ofNat m.nodeCount
  · exact Value.isTextual_ofNat m.edgeCount
  · exact Value.isTextual_ofNat m.estimate.constraints.toNat
  · rfl

namespace Output

/-- A report is made of texts and natural numbers. -/
theorem isTextual_report (o : Output) : o.report.isTextual = true := by
  refine Value.membersAreTextual_map _ fun member hmember => ?_
  rcases List.mem_append.1 hmember with hmember | hmember
  · simp only [members, List.mem_cons, List.not_mem_nil, or_false] at hmember
    rcases hmember with rfl | rfl | rfl
    · rfl
    · exact Value.areTextual_map o.diagnostics Diagnostic.isTextual_toJson
    · exact o.metrics.isTextual_toJson
  · cases hdigest : o.digestText? with
    | none =>
      rw [hdigest] at hmember
      cases hmember
    | some digest =>
      rw [hdigest] at hmember
      cases List.mem_singleton.1 hmember
      rfl

/-- A report that ends with a line feed is read back. -/
theorem parse_report (o : Output) : Value.parse (o.report.pretty ++ "\n") = some o.report := by
  have hspace : ∀ c ∈ ['\n'], isSpace c = true := List.forall_mem_singleton.2 rfl
  exact Value.parse_pretty_append o.isTextual_report hspace

/-- The members of a report without the digest. -/
def reportedFields : List String := ["code", "diagnostics", "metrics"]

/-- The code, the diagnostics and the metrics in a report are those of the outcome. -/
theorem record?_report (o : Output) : o.report.record? reportedFields = some o.members := by
  rw [report]
  cases o.digestText? with
  | none => rfl
  | some digest => rfl

end Output

/-! ## What a report is about -/

/-- Different numbers have different numerals. -/
theorem Json.Value.ofNat_injective : Function.Injective Value.ofNat := by
  intro m n h
  injection h with hnumeral
  injection hnumeral with _ hdigits
  rw [← Text.ofDigits_toDigits m, hdigits, Text.ofDigits_toDigits]

/-- Different kinds of problems have different names. -/
theorem Problem.name_injective : Function.Injective Problem.name := by
  intro p q h
  cases p <;> cases q <;> first | rfl | exact absurd h (by decide)

/-- Different severities have different words. -/
theorem Severity.name_injective : Function.Injective Severity.name := by
  intro s t h
  cases s <;> cases t <;> first | rfl | exact absurd h (by decide)

/-- Different diagnostics are written in different ways. -/
theorem Diagnostic.toJson_injective : Function.Injective Diagnostic.toJson := by
  intro d e h
  obtain ⟨problem, severity, nodeId, edgeId, message⟩ := d
  obtain ⟨problem', severity', nodeId', edgeId', message'⟩ := e
  cases nodeId <;> cases edgeId <;> cases nodeId' <;> cases edgeId' <;>
    simp_all [toJson, Value.ofMembers, Value.optionalMember, Value.ofString,
      Problem.name_injective.eq_iff, Severity.name_injective.eq_iff]

/-- Different metrics are written in different ways. -/
theorem Metrics.toJson_injective : Function.Injective Metrics.toJson := by
  intro m n h
  obtain ⟨nodeCount, edgeCount, constraints, time⟩ := m
  obtain ⟨nodeCount', edgeCount', constraints', time'⟩ := n
  simp only [toJson, Estimate.members, Value.ofMembers, Value.ofString, List.map_cons,
    List.map_nil, Value.object.injEq, List.cons.injEq, Prod.mk.injEq, true_and, and_true,
    Value.string.injEq, Option.some.injEq, Value.ofNat_injective.eq_iff] at h
  obtain ⟨rfl, rfl, hconstraints, rfl⟩ := h
  rw [Count.ext hconstraints]

/-- The code, the diagnostics and the metrics in a report belong to one outcome only. -/
theorem Output.members_injective : Function.Injective Output.members := by
  intro o o' h
  obtain ⟨code, diagnostics, metrics⟩ := o
  obtain ⟨code', diagnostics', metrics'⟩ := o'
  simp only [members, Value.ofString, List.cons.injEq, Prod.mk.injEq, true_and, and_true,
    Value.string.injEq, Option.some.injEq, Value.array.injEq,
    Diagnostic.toJson_injective.list_map.eq_iff, Metrics.toJson_injective.eq_iff] at h
  obtain ⟨rfl, rfl, rfl⟩ := h
  rfl

end CircuitGraph
