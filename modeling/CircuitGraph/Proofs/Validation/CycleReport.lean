import CircuitGraph.Proofs.Graph.Path
import CircuitGraph.Proofs.Order.Verdict
import CircuitGraph.Proofs.Validation.Outcome

/-!
# Reports of cycles

A cycle is reported for every wire that leads back to the path of the search, and for no other. What
the report lists is a cycle of well-formed edges that this wire closes (`Graph.ReportsCycle`), and
without the edges of these wires the graph has no cycle.

`Graph.CycleReports` puts this together with what is known of the search itself: it stops, it has
then followed every wire once, and it never looks for a vertex that is not on its path.
-/

namespace CircuitGraph

open Validation

/-- A diagnostic reports the cycle that an edge closes: a path of edges leads from the target of the
edge over further ids to its source. -/
structure Graph.ReportsCycle (g : Graph) (e : Edge) (rest : List String) (d : Diagnostic) :
    Prop where
  /-- The edge is a well-formed one of the graph. -/
  edge : e ∈ g.edges ∧ g.isWellFormed e = true
  /-- The diagnostic is one of the target and lists the path back to it. -/
  diagnostic : d = .atNode .cycleDetected e.target
    ("cycle detected: " ++ " -> ".intercalate (e.target :: rest ++ [e.target]))
  /-- No id is on the path twice. -/
  nodup : (e.target :: rest).Nodup
  /-- Each id is connected to the next one. -/
  chain : (e.target :: rest ++ [e.target]).IsChain g.Connects
  /-- The last one before the path returns is the source. -/
  source : (e.target :: rest).getLast? = some e.source
  /-- An edge from a node to itself is a path of its own. -/
  loop : e.source = e.target ↔ rest = []

/-- A well-formed edge of a graph closes a path from its target to its source. -/
theorem Graph.reportsCycle_of_path {g : Graph} {e : Edge} (he : e ∈ g.edges ∧ g.isWellFormed e)
    {rest : List String} (hnodup : (e.target :: rest).Nodup)
    (hchain : (e.target :: rest).IsChain g.Connects)
    (hlast : (e.target :: rest).getLast? = some e.source) :
    g.ReportsCycle e rest (.atNode .cycleDetected e.target
      ("cycle detected: " ++ " -> ".intercalate (e.target :: rest ++ [e.target]))) where
  edge := he
  diagnostic := rfl
  nodup := hnodup
  chain := by
    refine List.isChain_append.2 ⟨hchain, .singleton _, ?_⟩
    rintro a ha b hb
    obtain rfl := Option.some.inj (hlast.symm.trans ha)
    obtain rfl := Option.some.inj hb
    exact ⟨e, he.1, he.2, rfl, rfl⟩
  source := hlast
  loop := by
    constructor
    · intro hloop
      cases rest with
      | nil => rfl
      | cons id rest =>
        -- the last id would be the target, which is not on the path twice
        rw [List.getLast?_cons_cons, hloop] at hlast
        exact absurd (List.mem_of_getLast? hlast) (List.nodup_cons.1 hnodup).1
    · rintro rfl
      exact (Option.some.inj hlast).symm

namespace Validation.Search

variable {g : Graph} {index : Index} {s s' : Search}

/-! ## The path of a report -/

/-- What is on the path owns its id. -/
theorem Inv.stack_subset (h : s.Inv index) : s.stack ⊆ index.owners := by
  intro v hv
  obtain ⟨f, hf, rfl⟩ := List.mem_map.1 (List.mem_reverse.1 hv)
  exact h.isPath.owners f hf

/-- An owner is active when it is on the path. -/
theorem Inv.mem_stack_iff (hi : index.Sound) (h : s.Inv index) {v : Vertex}
    (hv : v ∈ index.owners) : v ∈ s.stack ↔ s.visits v.position = .active := by
  rw [h.active_iff, positions, List.mem_map, stack, List.mem_reverse, List.mem_map]
  constructor
  · rintro ⟨f, hf, rfl⟩
    exact ⟨f, hf, rfl⟩
  · rintro ⟨f, hf, hposition⟩
    exact ⟨f, hf, hi.eq_of_position_eq (Index.mem_vertices_of_mem_owners (h.isPath.owners f hf))
      (Index.mem_vertices_of_mem_owners hv) hposition⟩

/-- No id is on the path twice. -/
theorem Inv.nodup_ids (h : s.Inv g.index) : (s.stack.map Vertex.id).Nodup := by
  have hnodup : (s.stack.map Vertex.position).Nodup := by
    rw [stack, List.map_reverse, List.nodup_reverse, List.map_map]
    exact h.nodup
  refine List.Nodup.map_on (fun u hu v hv hid => ?_) (List.Nodup.of_map _ hnodup)
  exact Graph.eq_of_mem_owners (h.stack_subset hu) (h.stack_subset hv) hid

/-- Each vertex on the path is connected to the next one inwards. -/
theorem Inv.isChain_ids (h : s.Inv g.index) : (s.stack.map Vertex.id).IsChain g.Connects := by
  have hi := g.index_sound
  rw [List.isChain_map, stack, List.isChain_reverse]
  refine h.isPath.chain.imp_of_mem_imp fun v u hv _ hvu => ?_
  obtain ⟨w, hw, rfl⟩ := hvu
  obtain ⟨hmem, hposition⟩ := Index.mem_incoming.1 hw
  have howner := h.stack_subset (List.mem_reverse.2 hv)
  have htarget : w.target = v := hi.eq_of_position_eq (hi.target_mem_vertices hmem)
    (Index.mem_vertices_of_mem_owners howner) hposition
  exact g.connects_iff_exists_wire.2 ⟨w, hmem, rfl, by rw [htarget]⟩

/-- The innermost vertex is the last one on the path. -/
theorem getLast?_stack {f : Frame} {path : List Frame} (hpath : s.path = f :: path) :
    s.stack.getLast? = some f.vertex := by
  rw [stack, List.getLast?_reverse, hpath]
  rfl

/-- What is reported when a wire leads from the innermost vertex back to the path is the cycle that
its edge closes. -/
theorem Inv.reportsCycle (h : s.Inv g.index) {w : Wire} (hw : w ∈ g.index.wires)
    (hlast : s.stack.getLast? = some w.source) (hactive : s.visits w.target.position = .active) :
    ∃ rest, g.ReportsCycle w.edge rest (s.reportOf w.target) := by
  have hi := g.index_sound
  have hsource : w.source.id = w.edge.source := (owner?_eq_some (hi.source_owner w hw)).2
  have htarget : w.target.id = w.edge.target := (owner?_eq_some (hi.target_owner w hw)).2
  have hedge : w.edge ∈ g.edges.filter g.isWellFormed := by
    rw [← g.map_edge_wires]
    exact List.mem_map_of_mem hw
  have hcycle := (h.stackFrom_eq hi (hi.target_mem_owners hw) hactive).2
  let rest := (pathFrom s.path w.target.position).map Vertex.id
  have hids : (s.stackFrom w.target).map Vertex.id = w.edge.target :: rest := by
    rw [hcycle, List.map_cons, htarget]
  -- the path from the target on is what is left of the whole path when its front is dropped
  have hsuffix : (w.edge.target :: rest) <:+ s.stack.map Vertex.id := by
    rw [← hids, stackFrom, List.map_drop]
    exact List.drop_suffix _ _
  have hshort : ¬ s.stack.length ≤ (s.place? w.target).getD 0 := by
    intro hle
    rw [stackFrom, List.drop_eq_nil_of_le hle] at hcycle
    cases hcycle
  have hback : (w.edge.target :: rest).getLast? = some w.edge.source := by
    rw [← hids, List.getLast?_map, stackFrom, List.getLast?_drop, if_neg hshort, hlast,
      Option.map_some, hsource]
  have hreport : s.reportOf w.target = .atNode .cycleDetected w.edge.target
      ("cycle detected: " ++ " -> ".intercalate (w.edge.target :: rest ++ [w.edge.target])) := by
    rw [reportOf, hids, htarget]
    rfl
  rw [hreport]
  exact ⟨rest, Graph.reportsCycle_of_path (List.mem_filter.1 hedge)
    (h.nodup_ids.sublist hsuffix.sublist) (h.isChain_ids.suffix hsuffix) hback⟩

/-! ## Wires that lead back -/

/-- When the search follows a wire that leads back, its target is on the path. -/
def LeadsBack (index : Index) (w : Wire) : Prop :=
  ∃ s, Runs index (start index) s ∧ s.next? = some w ∧ w.target ∈ s.stack

/-- The wire that is followed next is the first one of the innermost vertex. -/
theorem next?_eq_some_iff {w : Wire} :
    s.next? = some w ↔ ∃ v wires path, s.path = ⟨v, w :: wires⟩ :: path := by
  unfold next?
  constructor
  · intro h
    obtain ⟨f, hf, hw⟩ := Option.bind_eq_some_iff.1 h
    obtain ⟨path, hpath⟩ := List.head?_eq_some_iff.1 hf
    obtain ⟨wires, hwires⟩ := List.head?_eq_some_iff.1 hw
    exact ⟨f.vertex, wires, path, by rw [hpath, ← hwires]⟩
  · rintro ⟨v, wires, path, hpath⟩
    rw [hpath]
    rfl

/-- What closed a cycle is not forgotten. -/
theorem Runs.closing_subset (hruns : Runs index s s') : s.closing ⊆ s'.closing := by
  induction hruns with
  | refl => exact List.Subset.refl _
  | tail _ hstep ih =>
    refine List.Subset.trans ih ?_
    cases step_cases hstep with
    | close => exact List.subset_append_left _ _
    | _ => exact List.Subset.refl _

/-- A wire that leads back has closed a cycle when the search stops. -/
theorem LeadsBack.mem_closing (hi : index.Sound) {w : Wire} (h : LeadsBack index w)
    {last : Search} (hruns : Runs index (start index) last) (hlast : last.step index = none) :
    w ∈ last.closing := by
  obtain ⟨s, hs, hnext, hstack⟩ := h
  have hinv := hs.inv hi
  obtain ⟨v, wires, path, hpath⟩ := next?_eq_some_iff.1 hnext
  have hactive := (hinv.mem_stack_iff hi (hi.target_mem_owners (hinv.mem_wires hpath))).1 hstack
  have hstep : s.step index = some ((s.advance w (⟨v, wires⟩ :: path)).close w) := by
    simp [step, hpath, advance, hactive]
  exact (Runs.to_last hlast (hs.tail hstep) hruns).closing_subset
    (List.mem_append_right _ (List.mem_singleton_self w))

/-- What is recorded while the search runs. -/
structure Recorded (g : Graph) (s : Search) : Prop where
  /-- The wires that closed a cycle have been followed. -/
  sublist : s.closing.Sublist s.followed
  /-- The wires that closed a cycle lead back. -/
  leadsBack : ∀ w ∈ s.closing, LeadsBack g.index w
  /-- There is one report for each wire that closed a cycle. -/
  reports : List.Forall₂ (fun w d => ∃ rest, g.ReportsCycle w.edge rest d) s.closing s.reports

/-- Every step keeps the records. -/
theorem Recorded.step (hinv : s.Inv g.index) (hruns : Runs g.index (start g.index) s)
    (h : Recorded g s) (hstep : s.step g.index = some s') : Recorded g s' := by
  obtain ⟨hsublist, hback, hreports⟩ := h
  have hi := g.index_sound
  cases step_cases hstep with
  | pass => exact ⟨hsublist, hback, hreports⟩
  | begin => exact ⟨hsublist, hback, hreports⟩
  | leave => exact ⟨hsublist, hback, hreports⟩
  | enter => exact ⟨hsublist.trans (List.sublist_append_left _ _), hback, hreports⟩
  | skip => exact ⟨hsublist.trans (List.sublist_append_left _ _), hback, hreports⟩
  | @close v w wires path hpath hactive =>
    have hw := hinv.mem_wires hpath
    have hadvance := hinv.advance hpath
    have hsource : w.source = v := by
      have hisPath := hinv.isPath
      rw [hpath] at hisPath
      exact (hisPath.source_eq hi).2
    have hlast : (s.advance w (⟨v, wires⟩ :: path)).stack.getLast? = some w.source := by
      rw [getLast?_stack rfl, hsource]
    constructor
    · exact hsublist.append (.refl [w])
    · intro u hu
      rcases List.mem_append.1 hu with hu | hu
      · exact hback u hu
      · rw [List.mem_singleton.1 hu]
        exact ⟨s, hruns, next?_eq_some_iff.2 ⟨v, wires, path, hpath⟩,
          (hinv.mem_stack_iff hi (hi.target_mem_owners hw)).2 hactive⟩
    · exact List.rel_append hreports
        (.cons (hadvance.reportsCycle hw hlast hactive) .nil)

/-- Nothing is recorded before the first step. -/
theorem Recorded.start (g : Graph) : Recorded g (start g.index) where
  sublist := .refl []
  leadsBack _ hw := absurd hw List.not_mem_nil
  reports := .nil

/-- Every state that is reached has its records. -/
theorem Runs.recorded (hruns : Runs g.index (start g.index) s) : Recorded g s :=
  hruns.preserves g.index_sound (.start g) fun hruns hinv hstep h => h.step hinv hruns hstep

end Validation.Search

/-- A cycle is reported when wires form one, and only then. -/
theorem Index.Sound.cyclesDetected_eq_nil_iff_acyclic {index : Index} (hi : index.Sound) :
    cyclesDetected index = [] ↔ index.Acyclic := by
  constructor
  · exact acyclic_of_cyclesDetected hi
  · exact fun hac => hi.cyclesDetected_eq_nil_iff.2 (place_left_eq_nil hi hac)

/-! ## Leaving out edges -/

namespace Graph

/-- A graph without the edges at some positions. -/
def withoutEdges (g : Graph) (positions : List Nat) : Graph :=
  { g with edges := (g.edges.zipIdx.filter fun p => p.2 ∉ positions).map Prod.fst }

variable {g : Graph}

/-- An edge whose ends are found is a wire. -/
theorem mem_wires_of_linkEnds {e : Edge} {i : Nat} (he : (e, i) ∈ g.edges.zipIdx)
    {source target : Vertex} (hends : linkEnds g.vertices e = .ok (source, target)) :
    ⟨i, e, source, target⟩ ∈ g.index.wires := by
  refine List.mem_filterMap.2 ⟨⟨i, e, linkEnds g.vertices e⟩, List.mem_map_of_mem he, ?_⟩
  rw [Link.wire?_eq_some_iff, hends]

/-- No wire is repeated. -/
theorem nodup_wires (g : Graph) : g.index.wires.Nodup := by
  have hpositions : g.index.links.map Link.position = List.range' 0 g.edges.length := by
    rw [← List.zipIdx_map_snd]
    exact List.map_map
  have hlinks : g.index.links.Nodup :=
    List.Nodup.of_map Link.position (hpositions ▸ List.nodup_range')
  refine hlinks.filterMap fun link link' w hw hw' => ?_
  rw [Link.wire?_eq_some_iff.1 hw, Link.wire?_eq_some_iff.1 hw']

/-- Without the edges of some wires the edges form no cycle if the other wires form none. -/
theorem acyclic_withoutEdges {wires : List Wire} (h : (g.index.without wires).Acyclic) :
    (g.withoutEdges (wires.map Wire.position)).Acyclic := by
  intro id hloop
  -- an edge that is left leads from the position of the owner of its source to that of its target
  let position := fun id => (g.index.lookup? id).elim 0 Vertex.position
  have hposition : ∀ {id v}, owner? g.vertices id = some v → v.position = position id := by
    intro id v hv
    have hlookup : g.index.lookup? id = some v := hv
    simp only [position, hlookup, Option.elim_some]
  refine h (position id) (Relation.TransGen.lift position ?_ _ _ hloop)
  rintro a b ⟨e, he, hformed, rfl, rfl⟩
  obtain ⟨⟨e, i⟩, hleft, rfl⟩ := List.mem_map.1 he
  obtain ⟨hmem, hout⟩ := List.mem_filter.1 hleft
  have hformed : (linkEnds g.vertices e).isOk = true := hformed
  cases hends : linkEnds g.vertices e with
  | error fault =>
    rw [hends] at hformed
    cases hformed
  | ok ends =>
    obtain ⟨hsource, htarget, -, -⟩ := linkEnds_eq_ok hends
    have hw : (⟨i, e, ends.1, ends.2⟩ : Wire) ∉ wires := fun hw =>
      of_decide_eq_true hout (List.mem_map_of_mem hw)
    exact ⟨⟨i, e, ends.1, ends.2⟩,
      List.mem_filter.2 ⟨mem_wires_of_linkEnds hmem hends, decide_eq_true hw⟩,
      hposition hsource, hposition htarget⟩

/-! ## The main result -/

/-- What the check for cycles reports on a graph, and how its search ends. -/
structure CycleReports (config : Config) (g : Graph) (last : Search) : Prop where
  /-- A cycle is reported when edges form one, and only then. -/
  detects : (∃ d ∈ g.validate config, d.problem = .cycleDetected) ↔ ∃ id, g.OnCycle id
  /-- The search comes to this state and stops. -/
  stops : Search.Runs g.index (.start g.index) last ∧ last.step g.index = none
  /-- The search has followed all wires, which are the well-formed edges and leave the owners. -/
  followed : last.followed.Perm g.index.wires
  /-- The search has followed each wire once. -/
  nodup : last.followed.Nodup
  /-- The reports of the search are those of the check. -/
  reports : last.reports = (g.validate config).filter fun d => d.problem = .cycleDetected
  /-- There is one report for each wire that closed a cycle, and what it says is true. -/
  genuine : List.Forall₂ (fun w d => ∃ rest, g.ReportsCycle w.edge rest d) last.closing last.reports
  /-- The wires that closed a cycle are those that lead back, each of them once. -/
  closing : last.closing.Nodup ∧ ∀ w, w ∈ last.closing ↔ Search.LeadsBack g.index w
  /-- Without the edges that closed a cycle the graph has no cycle. -/
  acyclic : (g.withoutEdges (last.closing.map Wire.position)).Acyclic
  /-- When the search looks for the place of an active vertex on its path, it finds one. -/
  place : ∀ s, Search.Runs g.index (.start g.index) s → ∀ w, s.next? = some w →
    s.visits w.target.position = .active → (s.place? w.target).isSome

/-- **Reports of cycles.** On every graph the search for cycles stops, and its reports are genuine
and complete. -/
theorem exists_cycleReports (config : Config) (g : Graph) : ∃ last, g.CycleReports config last := by
  have hi := g.index_sound
  obtain ⟨last, hruns, hlast⟩ := (Search.Inv.start g.index).exists_last hi
  have hrecorded := hruns.recorded
  have hfollowed := (hruns.inv hi).perm_followed hi (hruns.met hi) hlast
  have hnodup := hfollowed.nodup_iff.2 g.nodup_wires
  refine ⟨last, ?_⟩
  constructor
  · have hcycle : (∃ d ∈ g.validate config, d.problem = .cycleDetected) ↔ ¬ g.Acyclic := by
      rw [← acyclic_iff, ← hi.cyclesDetected_eq_nil_iff_acyclic]
      exact exists_mem_validate_iff
    rw [hcycle, Acyclic, not_forall_not]
    rfl
  · exact ⟨hruns, hlast⟩
  · exact hfollowed
  · exact hnodup
  · calc last.reports
        = last.outcome g.index := (Search.outcome_last hlast).symm
      _ = cyclesDetected g.index := hruns.outcome_eq hi
      _ = (g.validate config).filter fun d => d.problem = .cycleDetected :=
        (filter_validate config g.index .cycleDetected).symm
  · exact hrecorded.reports
  · exact ⟨hrecorded.sublist.nodup hnodup, fun w => ⟨hrecorded.leadsBack w,
      fun h => h.mem_closing hi hruns hlast⟩⟩
  · exact acyclic_withoutEdges ((hruns.settled hi).acyclic hi (hruns.met hi) hlast)
  · intro s hs w hnext hactive
    have hinv := hs.inv hi
    obtain ⟨v, wires, path, hpath⟩ := Search.next?_eq_some_iff.1 hnext
    exact (hinv.stackFrom_eq hi (hi.target_mem_owners (hinv.mem_wires hpath)) hactive).1

end Graph

end CircuitGraph
