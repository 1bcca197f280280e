import CircuitGraph.Proofs.Graph.Representation
import CircuitGraph.Proofs.Graph.Sweep

/-!
# What the two searches mark

An index is searched along its wires or against them. `Graph.marks_of_lt` says what is marked in
terms of the graph alone, whatever its ids and edges are: the positions to which, or from which, a
path of well-formed edges leads. Such an edge leaves the first node that has its source as id and
arrives at the first node that has its target as id (`Graph.Joins`), so that a node whose id is
taken lies on no path but the empty one.

`Flood` tells how a search goes, turn by turn. Each turn takes away a pending position, and the
positions that a marked one leads to become pending once, so there are no more turns than starts and
edges together, on cycles too.

The marks are those of the loop that reads the tables of the index and marks a position when it
pushes it (`Sweep.Runs`). That loop takes one turn for each mark.
-/

namespace CircuitGraph

/-! ## The turns of a search -/

/-- A search goes from the unmarked and the pending positions to the marks in a number of turns. -/
inductive Flood (next : Nat → List Nat) : List Nat → List Nat → List Nat → Nat → Prop
  /-- Nothing is pending. -/
  | done {unmarked : List Nat} : Flood next unmarked [] [] 0
  /-- The pending position is marked, and what follows it becomes pending. -/
  | mark {unmarked pending marks : List Nat} {v turns : Nat} (hv : v ∈ unmarked)
      (h : Flood next (unmarked.erase v) (next v ++ pending) marks turns) :
      Flood next unmarked (v :: pending) (v :: marks) (turns + 1)
  /-- The pending position is marked already. -/
  | skip {unmarked pending marks : List Nat} {v turns : Nat} (hv : v ∉ unmarked)
      (h : Flood next unmarked pending marks turns) :
      Flood next unmarked (v :: pending) marks (turns + 1)

variable {next : Nat → List Nat} {unmarked pending : List Nat}

/-- The search comes to its end: there is a turn for each position that was pending or followed a
marked one. -/
theorem flood_closure (next : Nat → List Nat) (unmarked pending : List Nat) :
    Flood next unmarked pending (closure next unmarked pending)
      (pending.length + ((closure next unmarked pending).map fun v => (next v).length).sum) := by
  fun_induction closure next unmarked pending with
  | case1 => exact .done
  | case2 unmarked v pending hv ih =>
    have hturns : (v :: pending).length + ((v :: closure next (unmarked.erase v)
        (next v ++ pending)).map fun v => (next v).length).sum =
          (next v ++ pending).length + ((closure next (unmarked.erase v)
            (next v ++ pending)).map fun v => (next v).length).sum + 1 := by
      simp only [List.length_cons, List.length_append, List.map_cons, List.sum_cons]
      omega
    rw [hturns]
    exact .mark hv ih
  | case3 unmarked v pending hv ih =>
    rw [List.length_cons, Nat.add_right_comm]
    exact .skip hv ih

/-- Only unmarked positions get marked. -/
theorem mem_unmarked_of_mem_closure {p : Nat} (hp : p ∈ closure next unmarked pending) :
    p ∈ unmarked := by
  fun_induction closure next unmarked pending with
  | case1 => cases hp
  | case2 unmarked v pending hv ih =>
    rcases List.mem_cons.1 hp with rfl | hp
    · exact hv
    · exact List.mem_of_mem_erase (ih hp)
  | case3 unmarked v pending hv ih => exact ih hp

/-- No position is marked twice. -/
theorem nodup_closure (hunmarked : unmarked.Nodup) : (closure next unmarked pending).Nodup := by
  fun_induction closure next unmarked pending with
  | case1 => exact .nil
  | case2 unmarked v pending hv ih =>
    -- a position that is marked leaves the unmarked ones
    refine List.nodup_cons.2 ⟨fun hmem => ?_, ih (hunmarked.erase v)⟩
    exact hunmarked.not_mem_erase (mem_unmarked_of_mem_closure hmem)
  | case3 unmarked v pending hv ih => exact ih hunmarked

/-! ## Edges between positions -/

namespace Graph

/-- A well-formed edge joins two positions. -/
def StepsTo (g : Graph) (a b : Nat) : Prop := ∃ e ∈ g.edges, g.Joins e a b

variable {g : Graph}

/-- A well-formed edge joins two positions when a wire does. -/
theorem leads_iff_stepsTo {a b : Nat} : g.index.Leads a b ↔ g.StepsTo a b := by
  constructor
  · rintro ⟨w, hw, hsource, htarget⟩
    exact ⟨w.edge, g.edge_mem_of_mem_wires hw,
      joins_iff.2 ⟨w.source, w.target, linkEnds_of_mem_wires hw, hsource, htarget⟩⟩
  · rintro ⟨e, he, hjoins⟩
    obtain ⟨source, target, hends, rfl, rfl⟩ := joins_iff.1 hjoins
    have hmem : (e, source, target) ∈
        g.index.wires.map (fun w => (w.edge, w.source, w.target)) := by
      rw [map_wires]
      exact List.mem_filterMap.2 ⟨e, he, by rw [hends]; rfl⟩
    obtain ⟨w, hw, heq⟩ := List.mem_map.1 hmem
    cases heq
    exact ⟨w, hw, rfl, rfl⟩

/-- A path of edges is a path of wires. -/
theorem leads_eq_stepsTo (g : Graph) : g.index.Leads = g.StepsTo :=
  funext fun _ => funext fun _ => propext leads_iff_stepsTo

end Graph

/-! ## Both searches -/

/-- Elements that are sorted by a number, each number taken once, are no more than there were. -/
theorem sum_length_filter_le {α : Type} (f : α → Nat) {ps : List Nat} (hps : ps.Nodup)
    (l : List α) : (ps.map fun p => (l.filter fun x => f x == p).length).sum ≤ l.length := by
  induction ps generalizing l with
  | nil => exact Nat.zero_le _
  | cons p ps ih =>
    obtain ⟨hp, hps⟩ := List.nodup_cons.1 hps
    -- the elements of the other numbers are among those that do not have the first
    have hrest : (ps.map fun q => (l.filter fun x => f x == q).length) =
        ps.map fun q => ((l.filter fun x => !(f x == p)).filter fun x => f x == q).length := by
      refine List.map_congr_left fun q hq => ?_
      rw [List.filter_filter]
      refine congrArg List.length (List.filter_congr fun x _ => ?_)
      have hne : q ≠ p := fun heq => hp (heq ▸ hq)
      cases hx : f x == q with
      | false => rfl
      | true => simp [beq_iff_eq.1 hx, hne]
    have hle := ih hps (l.filter fun x => !(f x == p))
    have hlength := List.length_eq_length_filter_add (l := l) fun x => f x == p
    rw [List.map_cons, List.sum_cons, hrest]
    omega

namespace Index

/-- The positions that wires from a position lead to. -/
def targets (index : Index) (p : Nat) : List Nat :=
  (index.outgoing p).map fun w => w.target.position

/-- The positions from which wires lead to a position. -/
def sources (index : Index) (p : Nat) : List Nat :=
  (index.incoming p).map fun w => w.source.position

variable {index : Index}

/-- A search that goes from the one end of the wires to the other ends, with no more turns than
starts and wires. -/
theorem Sound.exists_flood (hi : index.Sound) (first second : Wire → Nat) {next : Nat → List Nat}
    (hnext : ∀ p, next p = (index.wires.filter fun w => first w == p).map second)
    (starts : List Nat) : ∃ turns ≤ starts.length + index.wires.length,
      Flood next index.positions starts (closure next index.positions starts) turns := by
  refine ⟨_, Nat.add_le_add_left ?_ _, flood_closure next index.positions starts⟩
  have hmarked : (closure next index.positions starts).Nodup := nodup_closure hi.nodup_positions
  -- each wire is looked at from the position of its first end only
  simpa only [hnext, List.length_map] using sum_length_filter_le first hmarked index.wires

/-- A path starts at the position of a vertex when it ends at one. -/
theorem Sound.mem_positions_iff (hi : index.Sound) {a b : Nat}
    (h : Relation.ReflTransGen index.Leads a b) : a ∈ index.positions ↔ b ∈ index.positions := by
  induction h with
  | refl => exact Iff.rfl
  | tail _ hstep ih =>
    obtain ⟨w, hw, rfl, rfl⟩ := hstep
    exact ih.trans (iff_of_true (List.mem_map_of_mem (hi.source_mem_vertices hw))
      (List.mem_map_of_mem (hi.target_mem_vertices hw)))

/-- The target of a wire is not shadowed. -/
theorem Sound.not_isShadowed_of_target (hi : index.Sound) {w : Wire} (hw : w ∈ index.wires)
    {v : Vertex} (hv : v ∈ index.vertices) (h : w.target.position = v.position) :
    index.isShadowed v = false := by
  obtain rfl := hi.eq_of_position_eq (hi.target_mem_vertices hw) hv h
  exact Bool.eq_false_of_not_eq_true' (List.mem_filter.1 (hi.target_mem_owners hw)).2

/-- The source of a wire is not shadowed. -/
theorem Sound.not_isShadowed_of_source (hi : index.Sound) {w : Wire} (hw : w ∈ index.wires)
    {v : Vertex} (hv : v ∈ index.vertices) (h : w.source.position = v.position) :
    index.isShadowed v = false := by
  obtain rfl := hi.eq_of_position_eq (hi.source_mem_vertices hw) hv h
  exact Bool.eq_false_of_not_eq_true' (List.mem_filter.1 (hi.source_mem_owners hw)).2

/-- No path leads to a shadowed node, except from the node itself. -/
theorem Sound.eq_of_path_to_shadowed (hi : index.Sound) {v : Vertex} (hv : v ∈ index.vertices)
    (hshadowed : index.isShadowed v = true) {a : Nat}
    (h : Relation.ReflTransGen index.Leads a v.position) : v.position = a := by
  rcases h.cases_tail with heq | ⟨_, -, w, hw, -, htarget⟩
  · exact heq
  · rw [hi.not_isShadowed_of_target hw hv htarget] at hshadowed
    cases hshadowed

/-- No path leads from a shadowed node, except to the node itself. -/
theorem Sound.eq_of_path_from_shadowed (hi : index.Sound) {v : Vertex} (hv : v ∈ index.vertices)
    (hshadowed : index.isShadowed v = true) {b : Nat}
    (h : Relation.ReflTransGen index.Leads v.position b) : v.position = b := by
  rcases h.cases_head with heq | ⟨_, ⟨w, hw, hsource, -⟩, -⟩
  · exact heq
  · rw [hi.not_isShadowed_of_source hw hv hsource] at hshadowed
    cases hshadowed

/-- A search along wires or against them marks what the loop marks that pushes and marks together,
and the loop takes one turn for each mark. -/
theorem Sound.exists_runs (hi : index.Sound) (next : Nat → List Nat)
    (hnext : ∀ a, ∀ b ∈ next a, b ∈ index.positions) {starts : List Nat}
    (hstarts : ∀ s ∈ starts, s ∈ index.positions) :
    ∃ s, (Sweep.start index.vertices.length starts).Runs next
        (closure next index.positions starts).length s ∧
      s.marked = (List.range index.vertices.length).map fun p =>
        decide (p ∈ closure next index.positions starts) := by
  rw [hi.positions_eq] at hnext hstarts ⊢
  refine Sweep.exists_runs_of_mem_iff (fun a ha => List.mem_range.1 (hstarts a ha))
    (fun a b hb => List.mem_range.1 (hnext a b hb)) (nodup_closure List.nodup_range) fun p => ?_
  rw [mem_closure_iff hnext]
  exact exists_congr fun a => and_congr_right fun ha => and_iff_right (hstarts a ha)

end Index

/-! ## The tables -/

namespace Tables

/-- The positions that the edges from a position lead to. -/
def targets (t : Tables) (p : Nat) : List Nat :=
  (t.outgoing[p]?.getD []).filterMap fun i => t.ends[i]?.join.map Prod.snd

/-- The positions from which edges lead to a position. -/
def sources (t : Tables) (p : Nat) : List Nat :=
  (t.incoming[p]?.getD []).filterMap fun i => t.ends[i]?.join.map Prod.fst

variable {t : Tables} {g : Graph}

/-- The table of ends leads from the positions of wires to their ends. -/
theorem Hold.filterMap_ends (h : t.Hold g.index) (pick : Nat × Nat → Nat) {ws : List Wire}
    (hws : ∀ w ∈ ws, w ∈ g.index.wires) :
    ((ws.map Wire.position).filterMap fun i => t.ends[i]?.join.map pick) =
      ws.map fun w => pick (w.source.position, w.target.position) := by
  have hends : ∀ w ∈ ws,
      t.ends[w.position]?.join = some (w.source.position, w.target.position) := by
    intro w hw
    have hedge := (g.tabulates_index.mem_wires w (hws w hw)).1
    have hlink := Graph.linkEnds_of_mem_wires (hws w hw)
    have hjoin (link : Option Link) : (link.map Link.ends?).join = link.bind Link.ends? := by
      cases link <;> rfl
    rw [h.ends, List.getElem?_map, hjoin]
    exact (g.tabulates_index.ends?_eq_some_iff w.position _ _).2
      ⟨w.edge, hedge, Graph.joins_iff.2 ⟨w.source, w.target, hlink, rfl, rfl⟩⟩
  rw [List.filterMap_map, ← List.filterMap_eq_map]
  exact List.filterMap_congr fun w hw => by simp [hends w hw]

/-- In a table that lists the wires with an end at each vertex, no other position has an entry. -/
theorem getD_map_vertices (g : Graph) {pick : Wire → Vertex}
    (hpick : ∀ w ∈ g.index.wires, pick w ∈ g.index.vertices) (p : Nat) :
    ((g.index.vertices.map fun v => (g.index.wires.filter fun w =>
        (pick w).position == v.position).map Wire.position)[p]?.getD []) =
      (g.index.wires.filter fun w => (pick w).position == p).map Wire.position := by
  rw [List.getElem?_map, g.locates_index.getElem?_vertices]
  cases hnode : g.nodes[p]? with
  | some node => rfl
  | none =>
    -- a wire with its end there would have a vertex as its end
    have hnone : (g.index.wires.filter fun w => (pick w).position == p) = [] := by
      refine List.filter_eq_nil_iff.2 fun w hw hend => ?_
      have hvertex := Graph.mem_vertices_iff.1 (hpick w hw)
      rw [beq_iff_eq.1 hend, hnode] at hvertex
      cases hvertex
    rw [hnone]
    rfl

/-- The tables lead on to the targets of the wires. -/
theorem Hold.targets_eq (h : t.Hold g.index) : t.targets = g.index.targets := by
  funext p
  have hrow : t.outgoing[p]?.getD [] = (g.index.outgoing p).map Wire.position := by
    rw [h.outgoing]
    exact getD_map_vertices g (fun w hw => g.index_sound.source_mem_vertices hw) p
  rw [targets, hrow]
  exact h.filterMap_ends Prod.snd fun w hw => (Index.mem_outgoing.1 hw).1

/-- Against the edges, the tables lead on to the sources of the wires. -/
theorem Hold.sources_eq (h : t.Hold g.index) : t.sources = g.index.sources := by
  funext p
  have hrow : t.incoming[p]?.getD [] = (g.index.incoming p).map Wire.position := by
    rw [h.incoming]
    exact getD_map_vertices g (fun w hw => g.index_sound.target_mem_vertices hw) p
  rw [sources, hrow]
  exact h.filterMap_ends Prod.fst fun w hw => (Index.mem_incoming.1 hw).1

end Tables

namespace Graph

/-- What the searches from or to given positions mark, and that they come to an end. -/
structure Marks (g : Graph) (starts : List Nat) : Prop where
  /-- A position is marked along the edges when a path leads to it from a start. -/
  mem_reachableFrom_iff : ∀ b, b ∈ g.index.reachableFrom starts ↔
    ∃ a ∈ starts, Relation.ReflTransGen g.StepsTo a b
  /-- A position is marked against the edges when a path leads from it to a start. -/
  mem_reaching_iff : ∀ a, a ∈ g.index.reaching starts ↔
    ∃ b ∈ starts, Relation.ReflTransGen g.StepsTo a b
  /-- No position is marked twice. -/
  nodup : (g.index.reachableFrom starts).Nodup ∧ (g.index.reaching starts).Nodup
  /-- The search along the edges ends, with no more turns than starts and edges. -/
  reachableFrom_ends : ∃ turns ≤ starts.length + g.edges.length,
    Flood g.index.targets g.index.positions starts (g.index.reachableFrom starts) turns
  /-- The search against the edges ends, with no more turns than starts and edges. -/
  reaching_ends : ∃ turns ≤ starts.length + g.edges.length,
    Flood g.index.sources g.index.positions starts (g.index.reaching starts) turns
  /-- The loop along the edges that marks what it pushes takes one turn for each position that the
  search marks, and leaves the same marks. -/
  runs_targets : ∃ s, (Sweep.start g.nodes.length starts).Runs g.tables.targets
      (g.index.reachableFrom starts).length s ∧
    s.marked = (List.range g.nodes.length).map fun p => decide (p ∈ g.index.reachableFrom starts)
  /-- The loop against the edges that marks what it pushes takes one turn for each position that the
  search marks, and leaves the same marks. -/
  runs_sources : ∃ s, (Sweep.start g.nodes.length starts).Runs g.tables.sources
      (g.index.reaching starts).length s ∧
    s.marked = (List.range g.nodes.length).map fun p => decide (p ∈ g.index.reaching starts)
  /-- The searches from a single position and to one are dual to each other. -/
  dual : ∀ a b, b ∈ g.index.reachableFrom [a] ↔ a ∈ g.index.reaching [b]
  /-- A shadowed node is marked only if it is a start. -/
  shadowed : ∀ v ∈ g.index.vertices, g.index.isShadowed v = true →
    (v.position ∈ g.index.reachableFrom starts → v.position ∈ starts) ∧
      (v.position ∈ g.index.reaching starts → v.position ∈ starts)

variable {g : Graph}

/-- There are no more wires than edges. -/
theorem length_wires_le (g : Graph) : g.index.wires.length ≤ g.edges.length := by
  rw [← List.length_map Wire.edge, map_edge_wires]
  exact List.length_filter_le _ _

/-- **What the searches mark.** From valid positions, the searches mark what the paths of
well-formed edges lead to and come from. -/
theorem marks_of_lt (g : Graph) (starts : List Nat) (h : ∀ s ∈ starts, s < g.nodes.length) :
    g.Marks starts := by
  have hi := g.index_sound
  have hlength : g.index.vertices.length = g.nodes.length := by
    simp [index, vertices]
  have hvalid : ∀ s ∈ starts, s ∈ g.index.positions := by
    intro s hs
    rw [hi.positions_eq, hlength]
    exact List.mem_range.2 (h s hs)
  have hfrom : ∀ b, b ∈ g.index.reachableFrom starts ↔
      ∃ a ∈ starts, Relation.ReflTransGen g.StepsTo a b := by
    intro b
    rw [hi.mem_reachableFrom_iff, leads_eq_stepsTo]
    exact exists_congr fun a => and_congr_right fun ha => and_iff_right (hvalid a ha)
  have hto : ∀ a, a ∈ g.index.reaching starts ↔
      ∃ b ∈ starts, Relation.ReflTransGen g.StepsTo a b := by
    intro a
    rw [hi.mem_reaching_iff, leads_eq_stepsTo]
    exact exists_congr fun b => and_congr_right fun hb => and_iff_right (hvalid b hb)
  constructor
  case mem_reachableFrom_iff => exact hfrom
  case mem_reaching_iff => exact hto
  case nodup => exact ⟨nodup_closure hi.nodup_positions, nodup_closure hi.nodup_positions⟩
  case reachableFrom_ends =>
    obtain ⟨turns, hturns, hflood⟩ := hi.exists_flood (fun w => w.source.position)
      (fun w => w.target.position) (fun _ => rfl : ∀ p, g.index.targets p = _) starts
    exact ⟨turns, hturns.trans (Nat.add_le_add_left g.length_wires_le _), hflood⟩
  case reaching_ends =>
    obtain ⟨turns, hturns, hflood⟩ := hi.exists_flood (fun w => w.target.position)
      (fun w => w.source.position) (fun _ => rfl : ∀ p, g.index.sources p = _) starts
    exact ⟨turns, hturns.trans (Nat.add_le_add_left g.length_wires_le _), hflood⟩
  case runs_targets =>
    rw [(Tables.hold_tables g).targets_eq, ← hlength]
    exact hi.exists_runs g.index.targets (fun _ _ hb => hi.target_mem_positions hb) hvalid
  case runs_sources =>
    rw [(Tables.hold_tables g).sources_eq, ← hlength]
    exact hi.exists_runs g.index.sources (fun _ _ ha => hi.source_mem_positions ha) hvalid
  case dual =>
    intro a b
    rw [hi.mem_reachableFrom_iff, hi.mem_reaching_iff]
    simp only [List.mem_singleton, exists_eq_left]
    exact and_congr_left hi.mem_positions_iff
  case shadowed =>
    intro v hv hshadowed
    constructor
    · intro hmem
      obtain ⟨a, ha, -, hpath⟩ := hi.mem_reachableFrom_iff.1 hmem
      exact hi.eq_of_path_to_shadowed hv hshadowed hpath ▸ ha
    · intro hmem
      obtain ⟨b, hb, -, hpath⟩ := hi.mem_reaching_iff.1 hmem
      exact hi.eq_of_path_from_shadowed hv hshadowed hpath ▸ hb

/-- A cycle of two nodes behind an input, with an edge into nowhere and a node whose id is taken. -/
def ring : Graph where
  nodes :=
    [⟨"x", .input .secret "X"⟩, ⟨"a", .operation .add⟩, ⟨"b", .operation .add⟩,
     ⟨"a", .operation .multiply⟩]
  edges :=
    [wire "x" "a" "a", wire "a" "b" "a", wire "b" "a" "b", wire "b" "nowhere" "a", wire "x" "b" "c"]

/-- The searches go around the cycle and stop; the shadowed node is marked as a start only. -/
theorem marks_ring :
    (∀ s ∈ [2, 3], s < ring.nodes.length) ∧ ring.Marks [2, 3] ∧
      ring.index.reachableFrom [2, 3] = [2, 1, 3] ∧ ring.index.reaching [2] = [2, 1, 0] := by
  have hvalid : ∀ s ∈ [2, 3], s < ring.nodes.length := by decide
  have hpositions : ring.index.positions = [0, 1, 2, 3] := by decide
  have htargets : ring.index.targets 1 = [2] ∧ ring.index.targets 2 = [1] ∧
      ring.index.targets 3 = [] := by decide
  have hsources : ring.index.sources 0 = [] ∧ ring.index.sources 1 = [0, 2] ∧
      ring.index.sources 2 = [1] := by decide
  refine ⟨hvalid, marks_of_lt ring [2, 3] hvalid, ?_, ?_⟩
  · change closure ring.index.targets ring.index.positions [2, 3] = _
    simp [closure, hpositions, htargets]
  · change closure ring.index.sources ring.index.positions [2] = _
    simp [closure, hpositions, hsources]

end Graph

end CircuitGraph
