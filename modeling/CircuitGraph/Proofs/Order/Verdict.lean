import CircuitGraph.Proofs.Order.Linear
import CircuitGraph.Proofs.Validation.Accepted
import CircuitGraph.Proofs.Validation.Report

/-!
# Validation and ordering agree

Validation looks for shared ids by counting and for cycles by a depth-first search; ordering looks
for a shadowed vertex and then takes away what waits for nothing. `Graph.OrderVerdict` says that
the two agree on every graph: the same graphs are found to share an id, with the same id first, and
the same graphs are found to have a cycle.

One direction for cycles is that a search without a report leaves no cycle, so that everything can
be placed. The other is that a reported cycle feeds itself, so that none of its vertices is ever
placed.
-/

namespace CircuitGraph

open CircuitGraph.Validation

/-! ## Shared ids -/

/-- A vertex is shadowed when one before it has its id. -/
theorem Index.Sound.isShadowed_iff {index : Index} (hi : index.Sound) {before after : List Vertex}
    {v : Vertex} (h : index.vertices = before ++ v :: after) :
    index.isShadowed v = true ↔ v.id ∈ before.map Vertex.id := by
  have hlookup : index.lookup? v.id = (before.find? fun u => u.id == v.id).or (some v) := by
    rw [Index.lookup?, owner?, h, List.find?_append, List.find?_cons_of_pos (by simp)]
  unfold Index.isShadowed
  rw [hlookup]
  cases hfind : before.find? fun u => u.id == v.id with
  | none =>
    have hnot : v.id ∉ before.map Vertex.id := by
      simpa using hfind
    simp [hnot]
  | some first =>
    have hfirst := List.mem_of_find?_eq_some hfind
    have hid : v.id ∈ before.map Vertex.id :=
      List.mem_map.2 ⟨first, hfirst, by simpa using List.find?_some hfind⟩
    -- the two stand at different positions, for no vertex is repeated
    have hne : first.position ≠ v.position := by
      have hnodup := hi.nodup_positions
      rw [Index.positions, h, List.map_append, List.nodup_append'] at hnodup
      exact fun heq => hnodup.2.2 (List.mem_map_of_mem hfirst) (by simp [heq])
    simp [hid, hne]

/-- The first id that occurs for the second time is that of the first vertex with a predicate that
holds where the id has occurred before. -/
theorem head?_repeatedIds {shadowed : Vertex → Bool} {seen : List String} {vs : List Vertex}
    (hseen : seen.Nodup)
    (h : ∀ before v after, vs = before ++ v :: after →
      (shadowed v = true ↔ v.id ∈ seen ∨ v.id ∈ before.map Vertex.id)) :
    (repeatedIds seen (vs.map Vertex.id)).head? = (vs.find? shadowed).map Vertex.id := by
  induction vs generalizing seen with
  | nil => rfl
  | cons v vs ih =>
    have hv : shadowed v = true ↔ v.id ∈ seen := by simpa using h [] v vs rfl
    rw [List.map_cons, repeatedIds]
    by_cases hmem : v.id ∈ seen
    · rw [if_pos (List.count_eq_one_of_mem hseen hmem), List.find?_cons_of_pos (hv.2 hmem)]
      rfl
    · have hcount : seen.count v.id ≠ 1 := by
        rw [List.count_eq_zero_of_not_mem hmem]
        decide
      rw [if_neg hcount, List.find?_cons_of_neg (fun hshadowed => hmem (hv.1 hshadowed))]
      refine ih (List.nodup_cons.2 ⟨hmem, hseen⟩) fun before u after heq => ?_
      rw [h (v :: before) u after (by rw [heq]; rfl)]
      simp only [List.mem_cons, List.map_cons]
      tauto

/-- The first shared id that is reported is that of the first shadowed vertex. -/
theorem Index.Sound.head?_repeatedIds_vertices {index : Index} (hi : index.Sound) :
    (repeatedIds [] (index.vertices.map Vertex.id)).head? =
      (index.vertices.find? index.isShadowed).map Vertex.id := by
  refine head?_repeatedIds List.nodup_nil fun before v after h => ?_
  simpa using hi.isShadowed_iff h

/-- The first report of a shared id is that of the first shadowed vertex. -/
theorem find?_duplicateId (config : Config) (g : Graph) :
    ((g.validate config).find? fun d => d.problem = .duplicateId).bind Diagnostic.nodeId =
      (g.index.vertices.find? g.index.isShadowed).map Vertex.id := by
  rw [Graph.validate, ← List.head?_filter, filter_validate, report, duplicateIds, List.head?_map,
    g.index_sound.head?_repeatedIds_vertices]
  cases g.index.vertices.find? g.index.isShadowed <;> rfl

/-! ## The outcome of ordering -/

/-- Ordering stops at the first shadowed vertex, if there is one. -/
theorem Index.linearize_eq_duplicateId_iff {index : Index} {id : String} :
    index.linearize = .error (.duplicateId id) ↔
      (index.vertices.find? index.isShadowed).map Vertex.id = some id := by
  unfold Index.linearize
  cases index.vertices.find? index.isShadowed with
  | some v => simp
  | none =>
    simp only [Option.map_none, reduceCtorEq, iff_false]
    split <;> simp

/-- Without a shadowed vertex, ordering fails when vertices are left behind, and names them. -/
theorem Index.linearize_eq_cycle_iff {index : Index} {unresolved : List String} :
    index.linearize = .error (.cycle unresolved) ↔
      index.vertices.find? index.isShadowed = none ∧
        (place index index.degrees index.owners).2 ≠ [] ∧
        ((place index index.degrees index.owners).2.map Vertex.id).mergeSort (fun a b => a ≤ b) =
          unresolved := by
  unfold Index.linearize
  cases index.vertices.find? index.isShadowed with
  | some v => simp
  | none =>
    generalize place index index.degrees index.owners = result
    obtain ⟨placed, left⟩ := result
    cases left <;> simp

/-- A cycle is reported when vertices are left behind, and only then. -/
theorem Index.Sound.cyclesDetected_eq_nil_iff {index : Index} (hi : index.Sound) :
    cyclesDetected index = [] ↔ (place index index.degrees index.owners).2 = [] := by
  constructor
  · exact fun h => place_left_eq_nil hi (acyclic_of_cyclesDetected hi h)
  · intro h
    refine List.eq_nil_iff_forall_not_mem.2 fun d hd => ?_
    -- the first vertex of the reported cycle would be left behind
    obtain ⟨first, rest, hfed, -⟩ := exists_cycle_of_mem_cyclesDetected hi hd
    have hleft := hfed.mem_left hi List.mem_cons_self
    rw [h] at hleft
    cases hleft

/-- A shared id is reported when a vertex is shadowed, and only then. -/
theorem Index.Sound.duplicateIds_eq_nil_iff {index : Index} (hi : index.Sound) :
    duplicateIds index = [] ↔ index.vertices.find? index.isShadowed = none := by
  rw [duplicateIds, List.map_eq_nil_iff, ← List.head?_eq_none_iff, hi.head?_repeatedIds_vertices,
    Option.map_eq_none_iff]

/-- There is a linear order when neither a shared id nor a cycle is reported, and only then. -/
theorem Index.Sound.exists_linearize_iff_checks {index : Index} (hi : index.Sound) :
    (∃ order, index.linearize = .ok order) ↔
      duplicateIds index = [] ∧ cyclesDetected index = [] := by
  rw [Index.exists_linearize_iff, hi.duplicateIds_eq_nil_iff, hi.cyclesDetected_eq_nil_iff]

/-- A graph with a linear order has distinct ids. -/
theorem Index.Sound.nodup_ids_of_linearize {index : Index} (hi : index.Sound) {order : LinearOrder}
    (h : index.linearize = .ok order) : (index.vertices.map Vertex.id).Nodup :=
  nodup_ids_of_duplicateIds (hi.exists_linearize_iff_checks.1 ⟨order, h⟩).1

/-- Ordering and validation agree on a graph. -/
structure Graph.OrderVerdict (config : Config) (g : Graph) : Prop where
  /-- There is an order when neither a shared id nor a cycle is reported. -/
  ok_iff : (∃ order, g.linearize = .ok order) ↔
    ∀ d ∈ g.validate config, d.problem ≠ .duplicateId ∧ d.problem ≠ .cycleDetected
  /-- Ordering stops at an id when a shared id is reported. -/
  duplicate_iff : (∃ id, g.linearize = .error (.duplicateId id)) ↔
    ∃ d ∈ g.validate config, d.problem = .duplicateId
  /-- The id at which ordering stops is that of the first report. -/
  duplicate_first : ∀ id, g.linearize = .error (.duplicateId id) →
    ∃ d, (g.validate config).find? (fun d => d.problem = .duplicateId) = some d ∧
      d.nodeId = some id
  /-- Ordering fails for a cycle when a cycle is reported and no shared id is. -/
  cycle_iff : (∃ unresolved, g.linearize = .error (.cycle unresolved)) ↔
    (∀ d ∈ g.validate config, d.problem ≠ .duplicateId) ∧
      ∃ d ∈ g.validate config, d.problem = .cycleDetected
  /-- All nodes that are named in the report of a cycle are left behind: the node concerned, and
  those of the path in the message. -/
  cycle_unresolved : ∀ unresolved, g.linearize = .error (.cycle unresolved) →
    ∀ d ∈ g.validate config, d.problem = .cycleDetected →
      ∃ first rest, d.nodeId = some first ∧
        d.message = "cycle detected: " ++ " -> ".intercalate (first :: rest ++ [first]) ∧
        ∀ id ∈ first :: rest, id ∈ unresolved

/-- Ordering and validation agree on every graph. -/
theorem Graph.orderVerdict (config : Config) (g : Graph) : g.OrderVerdict config := by
  have hi := g.index_sound
  have hduplicate : (∃ d ∈ g.validate config, d.problem = .duplicateId) ↔
      g.index.vertices.find? g.index.isShadowed ≠ none :=
    exists_mem_validate_iff.trans (not_congr hi.duplicateIds_eq_nil_iff)
  have hcycle : (∃ d ∈ g.validate config, d.problem = .cycleDetected) ↔
      (place g.index g.index.degrees g.index.owners).2 ≠ [] :=
    exists_mem_validate_iff.trans (not_congr hi.cyclesDetected_eq_nil_iff)
  have hno_duplicate : (∀ d ∈ g.validate config, d.problem ≠ .duplicateId) ↔
      g.index.vertices.find? g.index.isShadowed = none := by
    simpa using not_congr hduplicate
  have hno_cycle : (∀ d ∈ g.validate config, d.problem ≠ .cycleDetected) ↔
      (place g.index g.index.degrees g.index.owners).2 = [] := by
    simpa using not_congr hcycle
  exact
    { ok_iff := by
        rw [Graph.linearize, Index.exists_linearize_iff, ← hno_duplicate, ← hno_cycle]
        exact ⟨fun h d hd => ⟨h.1 d hd, h.2 d hd⟩,
          fun h => ⟨fun d hd => (h d hd).1, fun d hd => (h d hd).2⟩⟩
      duplicate_iff := by
        rw [hduplicate, Option.ne_none_iff_exists']
        simp only [Graph.linearize, Index.linearize_eq_duplicateId_iff, Option.map_eq_some_iff]
        exact ⟨fun ⟨_, v, hv, _⟩ => ⟨v, hv⟩, fun ⟨v, hv⟩ => ⟨v.id, v, hv, rfl⟩⟩
      duplicate_first := by
        intro id h
        rw [Graph.linearize, Index.linearize_eq_duplicateId_iff, ← find?_duplicateId config] at h
        exact Option.bind_eq_some_iff.1 h
      cycle_iff := by
        rw [hno_duplicate, hcycle]
        simp only [Graph.linearize, Index.linearize_eq_cycle_iff]
        exact ⟨fun ⟨_, hnone, hleft, _⟩ => ⟨hnone, hleft⟩,
          fun ⟨hnone, hleft⟩ => ⟨_, hnone, hleft, rfl⟩⟩
      cycle_unresolved := by
        intro unresolved h d hd hproblem
        obtain ⟨-, -, rfl⟩ := Index.linearize_eq_cycle_iff.1 h
        rw [Graph.validate, mem_validate_iff, hproblem] at hd
        obtain ⟨first, rest, hfed, hreport⟩ := exists_cycle_of_mem_cyclesDetected hi hd
        cases hreport
        refine ⟨first.id, rest.map Vertex.id, rfl, rfl, fun id hid => ?_⟩
        -- the path lists the ids of vertices that are left behind
        obtain ⟨v, hv, rfl⟩ := List.mem_map.1 (show id ∈ (first :: rest).map Vertex.id from hid)
        exact List.mem_mergeSort.2 (List.mem_map_of_mem (hfed.mem_left hi hv)) }

end CircuitGraph
