import CircuitGraph.Proofs.Gadget.Setting
import CircuitGraph.Proofs.Validation.Outcome
import Mathlib.Data.List.Count

/-!
# Graphs that pass validation

Six of the eight checks report fatal diagnostics only, so a graph without a fatal diagnostic is one
of which these six report nothing. `accepted_of_hasFatal` collects what that means in `Accepted`:
ids are unique, edges are well formed, there is no cycle, each declared port has exactly one wire,
and the parameters of every gadget resolve.
-/

namespace CircuitGraph

/-- What a graph without fatal diagnostics keeps. -/
structure Index.Accepted (config : Config) (index : Index) : Prop where
  /-- No vertex is shadowed. -/
  unique : ∀ v ∈ index.vertices, index.isShadowed v = false
  /-- Every edge is well formed. -/
  links : ∀ link ∈ index.links, link.fault? = none
  /-- There is no cycle. -/
  acyclic : index.Acyclic
  /-- Each declared port of a vertex has exactly one wire. -/
  wired : ∀ v ∈ index.owners, v.node.ports ≠ .unresolved → ∀ port ∈ v.node.ports.names,
    ((index.incoming v.position).map fun w => w.edge.targetPort).count port = 1
  /-- The parameters of a gadget can be used. -/
  resolves : ∀ v ∈ index.owners, ∀ gadget params, v.node.kind = .gadget gadget params →
    ∃ setting, gadget.resolve config params = .ok setting

/-- Exactly one wire arrives at each declared port of a vertex. -/
theorem Index.Accepted.count_targetPort {config : Config} {index : Index}
    (ha : index.Accepted config) {v : Vertex} (hv : v ∈ index.owners) {port : String}
    (hport : port ∈ v.node.ports.names) :
    ((index.incoming v.position).map fun w => w.edge.targetPort).count port = 1 := by
  refine ha.wired v hv ?_ port hport
  -- without a parameter that says how many there are, no port is declared
  intro hunresolved
  rw [hunresolved] at hport
  cases hport

namespace Validation

variable {config : Config} {index : Index}

/-- A check that only reports fatal diagnostics reports none when none is fatal. -/
theorem eq_nil_of_hasFatal {ds : List Diagnostic} (hds : ∀ d ∈ ds, d.isFatal = true)
    (h : hasFatal ds = false) : ds = [] := by
  refine List.eq_nil_iff_forall_not_mem.2 fun d hd => ?_
  have hnot := List.any_eq_false.1 h d hd
  exact hnot (hds d hd)

/-- A shared id is fatal. -/
theorem isFatal_of_mem_duplicateIds {d : Diagnostic} (h : d ∈ duplicateIds index) :
    d.isFatal = true := by
  obtain ⟨id, -, rfl⟩ := List.mem_map.1 h
  rfl

/-- An edge that is not well formed is fatal. -/
theorem isFatal_of_mem_danglingEdges {d : Diagnostic} (h : d ∈ danglingEdges index) :
    d.isFatal = true := by
  obtain ⟨link, -, hd⟩ := List.mem_filterMap.1 h
  obtain ⟨fault, -, rfl⟩ := Option.map_eq_some_iff.1 hd
  rfl

/-- A cycle is fatal. -/
theorem isFatal_of_mem_cyclesDetected {d : Diagnostic} (h : d ∈ cyclesDetected index) :
    d.isFatal = true := by
  obtain ⟨cycle, -, hd⟩ := List.mem_filterMap.1 h
  cases cycle with
  | nil => cases hd
  | cons first rest =>
    cases hd
    rfl

/-- A port without exactly one wire is fatal. -/
theorem isFatal_of_mem_arityMismatches {d : Diagnostic} (h : d ∈ arityMismatches index) :
    d.isFatal = true := by
  obtain ⟨v, -, hd⟩ := List.mem_filterMap.1 h
  unfold arityOf? at hd
  split at hd
  · cases hd
  · dsimp only at hd
    split at hd
    · cases hd
    · cases hd
      rfl

/-- A parameter that cannot be used is fatal. -/
theorem isFatal_of_mem_parameters {d : Diagnostic} (h : d ∈ parameters config index) :
    d.isFatal = true := by
  obtain ⟨v, -, hd⟩ := List.mem_filterMap.1 h
  unfold parameterOf? at hd
  split at hd
  · split at hd
    · cases hd
    · cases hd
      rfl
  · cases hd

/-- When no id is met a second time, the ids are distinct. -/
theorem nodup_of_repeatedIds {before ids : List String} (hbefore : before.Nodup)
    (h : repeatedIds before ids = []) : ids.Nodup ∧ ∀ id ∈ ids, id ∉ before := by
  induction ids generalizing before with
  | nil => simp
  | cons id ids ih =>
    rw [repeatedIds] at h
    split_ifs at h with hcount
    -- an id that occurs once before is one that is met a second time here
    have hid : id ∉ before := fun hmem => hcount (List.count_eq_one_of_mem hbefore hmem)
    obtain ⟨hnodup, hnot⟩ := ih (List.nodup_cons.2 ⟨hid, hbefore⟩) h
    refine ⟨List.nodup_cons.2 ⟨fun hmem => hnot id hmem List.mem_cons_self, hnodup⟩, ?_⟩
    intro other hother
    rcases List.mem_cons.1 hother with rfl | hother
    · exact hid
    · exact fun hmem => hnot other hother (List.mem_cons_of_mem _ hmem)

/-- When no shared id is reported, ids are distinct. -/
theorem nodup_ids_of_duplicateIds (h : duplicateIds index = []) :
    (index.vertices.map Vertex.id).Nodup :=
  (nodup_of_repeatedIds List.nodup_nil (List.map_eq_nil_iff.1 h)).1

/-- A port of which nothing is reported has exactly one wire. -/
theorem eq_one_of_portProblem? {port : String} {n : Nat} (h : portProblem? port n = none) :
    n = 1 := by
  unfold portProblem? at h
  split at h
  · cases h
  · rfl
  · cases h

/-- When no port is reported, each declared port has exactly one wire. -/
theorem count_eq_one_of_arityMismatches (h : arityMismatches index = []) {v : Vertex}
    (hv : v ∈ index.owners) (hports : v.node.ports ≠ .unresolved) {port : String}
    (hport : port ∈ v.node.ports.names) :
    ((index.incoming v.position).map fun w => w.edge.targetPort).count port = 1 := by
  have hnone := List.filterMap_eq_nil_iff.1 h v hv
  unfold arityOf? at hnone
  rw [if_neg hports] at hnone
  dsimp only at hnone
  split_ifs at hnone with hempty
  rw [List.isEmpty_iff] at hempty
  exact eq_one_of_portProblem? (List.filterMap_eq_nil_iff.1 hempty port hport)

/-- When no parameter is reported, every gadget resolves. -/
theorem resolves_of_parameters (h : parameters config index = []) {v : Vertex}
    (hv : v ∈ index.owners) {gadget : Gadget} {params : Params}
    (hkind : v.node.kind = .gadget gadget params) :
    ∃ setting, gadget.resolve config params = .ok setting := by
  have hnone := List.filterMap_eq_nil_iff.1 h v hv
  unfold parameterOf? at hnone
  rw [hkind] at hnone
  dsimp only at hnone
  cases hresolve : gadget.resolve config params with
  | ok setting => exact ⟨setting, rfl⟩
  | error e =>
    rw [hresolve] at hnone
    cases hnone

/-- A graph without fatal diagnostics is accepted. -/
theorem accepted_of_hasFatal (hi : index.Sound) (h : hasFatal (index.validate config) = false) :
    index.Accepted config := by
  simp only [hasFatal, Index.validate, List.any_append, Bool.or_eq_false_iff] at h
  -- the checks in their order, without the three that the other stages do not rest on
  obtain ⟨⟨⟨⟨⟨⟨⟨hids, hedges⟩, hcycles⟩, -⟩, harity⟩, hparams⟩, -⟩, -⟩ := h
  have hids := eq_nil_of_hasFatal (fun _ => isFatal_of_mem_duplicateIds) hids
  have hedges := eq_nil_of_hasFatal (fun _ => isFatal_of_mem_danglingEdges) hedges
  have hcycles := eq_nil_of_hasFatal (fun _ => isFatal_of_mem_cyclesDetected) hcycles
  have harity := eq_nil_of_hasFatal (fun _ => isFatal_of_mem_arityMismatches) harity
  have hparams := eq_nil_of_hasFatal (fun _ => isFatal_of_mem_parameters) hparams
  exact
    { unique := fun _ => Index.not_isShadowed_of_nodup (nodup_ids_of_duplicateIds hids)
      links := fun link hlink =>
        Option.map_eq_none_iff.1 (List.filterMap_eq_nil_iff.1 hedges link hlink)
      acyclic := acyclic_of_cyclesDetected hi hcycles
      wired := fun v hv hports port => count_eq_one_of_arityMismatches harity hv hports
      resolves := fun v hv gadget params => resolves_of_parameters hparams hv }

end Validation

end CircuitGraph
