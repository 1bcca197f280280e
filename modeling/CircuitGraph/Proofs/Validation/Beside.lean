import CircuitGraph.Proofs.Graph.Beside
import CircuitGraph.Proofs.Validation.Cycle
import CircuitGraph.Proofs.Validation.Report

/-!
# The checks of two circuits on one canvas

Each check but one reports on two graphs that have nothing to do with each other what it reports on
the first one followed by what it reports on the second one (`Graph.Apart.report`). The exception is
the check that some input leads to an output, which one of the two graphs may fail as long as the
other one passes it.

The checks of single places ask of a vertex, an edge or a wire what has the same answer in its part.
The search for cycles keeps a state for the whole canvas: the positions that are still fresh, and
the path to where it is. As long as it walks in one part, the fresh positions of the other one stay
as they are (`Index.Part.follow`), so it closes the same cycles as on the part alone.
-/

namespace CircuitGraph

open CircuitGraph.Validation

/-! ## Repeated ids -/

/-- Whether an id is the second one of its kind depends on how often it occurred before. -/
theorem repeatedIds_congr {before before' ids : List String}
    (h : ∀ id ∈ ids, before.count id = before'.count id) :
    repeatedIds before ids = repeatedIds before' ids := by
  induction ids generalizing before before' with
  | nil => rfl
  | cons id ids ih =>
    rw [List.forall_mem_cons] at h
    have hrest : repeatedIds (id :: before) ids = repeatedIds (id :: before') ids :=
      ih fun other hother => by rw [List.count_cons, List.count_cons, h.2 other hother]
    rw [repeatedIds, repeatedIds, h.1, hrest]

/-- The repeated ids of two lists are those of the first one and those of the second one behind
it. -/
theorem repeatedIds_append (before ids ids' : List String) :
    repeatedIds before (ids ++ ids') =
      repeatedIds before ids ++ repeatedIds (ids.reverse ++ before) ids' := by
  induction ids generalizing before with
  | nil => rfl
  | cons id ids ih =>
    rw [List.cons_append, repeatedIds, ih, repeatedIds, List.reverse_cons, List.append_assoc]
    split <;> rfl

/-- An id is repeated in lists that share none when it is repeated in one of them. -/
theorem repeatedIds_append_of_disjoint {ids ids' : List String} (h : ids.Disjoint ids') :
    repeatedIds [] (ids ++ ids') = repeatedIds [] ids ++ repeatedIds [] ids' := by
  rw [repeatedIds_append]
  refine congrArg _ (repeatedIds_congr fun id hid => ?_)
  have hnot : id ∉ ids.reverse ++ [] := by
    rw [List.append_nil, List.mem_reverse]
    exact fun hmem => h hmem hid
  rw [List.count_eq_zero_of_not_mem hnot, List.count_nil]

/-! ## Single places -/

/-- What is wrong with an edge depends on the nodes that own the ids that it names. -/
theorem faultMessage_map {index index' : Index} {φ : Vertex → Vertex}
    (hnode : ∀ v, (φ v).node = v.node) {edge : Edge}
    (hsource : index'.lookup? edge.source = (index.lookup? edge.source).map φ)
    (htarget : index'.lookup? edge.target = (index.lookup? edge.target).map φ)
    (fault : LinkFault) : faultMessage index' edge fault = faultMessage index edge fault := by
  cases fault with
  | missingSource => rfl
  | missingTarget => rfl
  | unknownSourcePort => simp only [faultMessage, hsource, Option.any_map, hnode]
  | unknownTargetPort =>
    simp only [faultMessage, htarget, Option.map_map, Function.comp_def, hnode]

namespace Index.Part

variable {keep : Vertex → Bool} {n m : Nat} {part whole : Index} (h : Part keep n m part whole)
  (hwhole : whole.Sound)

include h hwhole

/-- The report on the ports of a vertex of the part is the same. -/
theorem arityOf?_shift {v : Vertex} (hv : v ∈ part.vertices) :
    arityOf? whole (v.shift n) = arityOf? part v := by
  have hwired : (whole.incoming (v.shift n).position).map (fun w => w.edge.targetPort) =
      (part.incoming v.position).map fun w => w.edge.targetPort := by
    rw [Vertex.position_shift, h.incoming hwhole hv, List.map_map]
    rfl
  rw [arityOf?, hwired]
  rfl

/-- The reason why a vertex of the part takes no part in the circuit is the same. -/
theorem orphanMessage?_shift (hpart : part.Sound) {v : Vertex} (hv : v ∈ part.vertices) :
    orphanMessage? whole whole.fed whole.useful (v.shift n) =
      orphanMessage? part part.fed part.useful v := by
  have hincoming : (whole.incoming (v.position + n)).isEmpty =
      (part.incoming v.position).isEmpty := by
    rw [h.incoming hwhole hv, List.isEmpty_map]
  have huseful : whole.useful.contains (v.position + n) = part.useful.contains v.position := by
    rw [Bool.eq_iff_iff, List.contains_iff_mem, List.contains_iff_mem,
      h.mem_useful_iff hwhole hpart hv]
  have hfed : whole.fed.contains (v.position + n) = part.fed.contains v.position := by
    rw [Bool.eq_iff_iff, List.contains_iff_mem, List.contains_iff_mem,
      h.mem_fed_iff hwhole hpart hv]
  simp only [orphanMessage?, Vertex.node_shift, Vertex.id_shift, Vertex.position_shift, hincoming,
    huseful, hfed]

end Index.Part

/-! ## Cycles -/

/-- A vertex of the path that is moved on with its wires. -/
def Validation.Frame.shift (n m : Nat) (f : Frame) : Frame :=
  ⟨f.vertex.shift n, f.pending.map (Wire.shift n m)⟩

/-- The wires to be followed from a path are those of an index. -/
def Validation.PendingOf (index : Index) (path : List Frame) : Prop :=
  ∀ f ∈ path, ∀ w ∈ f.pending, w ∈ index.wires

namespace Validation.PendingOf

variable {index : Index} {path : List Frame}

/-- No wire is to be followed from an empty path. -/
theorem nil (index : Index) : PendingOf index [] := nofun

/-- The wire to be followed next is one of the index. -/
theorem next_mem {v : Vertex} {w : Wire} {pending : List Wire}
    (h : PendingOf index (⟨v, w :: pending⟩ :: path)) : w ∈ index.wires :=
  h _ List.mem_cons_self w List.mem_cons_self

/-- A wire less is to be followed. -/
theorem skip {v : Vertex} {w : Wire} {pending : List Wire}
    (h : PendingOf index (⟨v, w :: pending⟩ :: path)) : PendingOf index (⟨v, pending⟩ :: path) :=
  List.forall_mem_cons.2 ⟨fun _ hu => h _ List.mem_cons_self _ (List.mem_cons_of_mem _ hu),
    (List.forall_mem_cons.1 h).2⟩

/-- The wires that leave a vertex may be put on a path, to be followed. -/
theorem push (h : PendingOf index path) (v : Vertex) :
    PendingOf index (⟨v, index.outgoing v.position⟩ :: path) :=
  List.forall_mem_cons.2 ⟨fun _ hu => (Index.mem_outgoing.1 hu).1, h⟩

end Validation.PendingOf

/-- The part of a path from a position on, on a path that is moved on. -/
theorem pathFrom_shift (n m : Nat) (path : List Frame) (position : Nat) :
    pathFrom (path.map (Frame.shift n m)) (position + n) =
      (pathFrom path position).map (Vertex.shift n) := by
  have hvertices : (path.map (Frame.shift n m)).map Frame.vertex =
      (path.map Frame.vertex).map (Vertex.shift n) := by
    rw [List.map_map, List.map_map]
    rfl
  have hposition : ((fun v : Vertex => v.position != position + n) ∘ Vertex.shift n) =
      fun v => v.position != position := by
    funext v
    show (v.position + n != position + n) = (v.position != position)
    simp only [bne, beq_eq_decide, Nat.add_right_cancel_iff]
  rw [pathFrom, pathFrom, hvertices, List.takeWhile_map, hposition, List.map_reverse]

/-- A position is met on a path that is moved on when it is met on the path. -/
theorem any_position_shift (n m : Nat) (path : List Frame) (position : Nat) :
    ((path.map (Frame.shift n m)).any fun f => f.vertex.position == position + n) =
      path.any fun f => f.vertex.position == position := by
  rw [List.any_map]
  refine congrArg _ (funext fun f => ?_)
  show (f.vertex.position + n == position + n) = (f.vertex.position == position)
  simp only [beq_eq_decide, Nat.add_right_cancel_iff]

namespace Index.Part

variable {keep : Vertex → Bool} {n m : Nat} {part whole : Index} (h : Part keep n m part whole)
  (hwhole : whole.Sound) (hpart : part.Sound) {before after : List Nat}
  (hbefore : ∀ v ∈ part.vertices, v.position + n ∉ before)
  (hafter : ∀ v ∈ part.vertices, v.position + n ∉ after)

include hbefore hafter in
/-- A position of the part is fresh among those of the whole when it is fresh in the part. -/
theorem mem_fresh_iff {v : Vertex} (hv : v ∈ part.vertices) {fresh : List Nat} :
    v.position + n ∈ before ++ fresh.map (· + n) ++ after ↔ v.position ∈ fresh := by
  rw [List.mem_append, List.mem_append]
  simp only [hbefore v hv, hafter v hv, false_or, or_false, List.mem_map,
    Nat.add_right_cancel_iff, exists_eq_right]

include hbefore in
/-- Visiting a position of the part leaves the fresh positions of the others. -/
theorem erase_fresh {v : Vertex} (hv : v ∈ part.vertices) {fresh : List Nat}
    (hfresh : v.position ∈ fresh) :
    (before ++ fresh.map (· + n) ++ after).erase (v.position + n) =
      before ++ (fresh.erase v.position).map (· + n) ++ after := by
  have hmem : v.position + n ∈ fresh.map (· + n) := List.mem_map_of_mem hfresh
  rw [List.append_assoc, List.erase_append_right _ (hbefore v hv), List.erase_append_left _ hmem,
    ← List.map_erase (add_left_injective n), List.append_assoc]

include h hwhole hpart hbefore hafter

/-- Following the wires of a part closes the same cycles as on the part alone, and leaves the fresh
positions of the others as they are. -/
theorem follow (fresh : List Nat) {path : List Frame} (hpending : PendingOf part path) :
    Validation.follow whole (before ++ fresh.map (· + n) ++ after) (path.map (Frame.shift n m)) =
      ((Validation.follow part fresh path).1.map (List.map (Vertex.shift n)),
        before ++ (Validation.follow part fresh path).2.map (· + n) ++ after) := by
  fun_induction Validation.follow part fresh path with
  | case1 fresh =>
    rw [List.map_nil, Validation.follow]
    rfl
  | case2 fresh v path ih =>
    show Validation.follow whole _ (⟨v.shift n, []⟩ :: path.map (Frame.shift n m)) = _
    rw [Validation.follow]
    exact ih fun f hf => hpending f (List.mem_cons_of_mem _ hf)
  | case3 fresh v w pending path hfresh ih =>
    -- the target of the wire is fresh on both sides, and the path goes on from it
    have htarget := hpart.target_mem_vertices hpending.next_mem
    have hfresh' := (mem_fresh_iff hbefore hafter htarget).2 hfresh
    have hrest := ih (hpending.skip.push w.target)
    rw [← erase_fresh hbefore htarget hfresh, List.map_cons, Frame.shift,
      ← h.outgoing hwhole htarget] at hrest
    show Validation.follow whole _
      (⟨v.shift n, w.shift n m :: pending.map (Wire.shift n m)⟩ :: path.map (Frame.shift n m)) = _
    rw [Validation.follow]
    exact (dif_pos hfresh').trans hrest
  | case4 fresh v w pending path hfresh hany cycles fresh' heq ih =>
    -- the wire leads back to the path, which closes the same cycle on both sides
    have htarget := hpart.target_mem_vertices hpending.next_mem
    have hfresh' := mt (mem_fresh_iff hbefore hafter htarget).1 hfresh
    have hrest := ih hpending.skip
    rw [heq] at hrest
    show Validation.follow whole _
      (⟨v.shift n, w.shift n m :: pending.map (Wire.shift n m)⟩ :: path.map (Frame.shift n m)) = _
    rw [Validation.follow]
    refine (dif_neg hfresh').trans ((if_pos ?_).trans ?_)
    · exact (any_position_shift n m (⟨v, pending⟩ :: path) w.target.position).trans hany
    · have hcycle := pathFrom_shift n m (⟨v, pending⟩ :: path) w.target.position
      simp only [List.map_cons, Frame.shift] at hrest hcycle
      rw [hrest]
      exact congrArg (fun path => ((w.target.shift n :: path) :: cycles.map (List.map
        (Vertex.shift n)), before ++ fresh'.map (· + n) ++ after)) hcycle
  | case5 fresh v w pending path hfresh hany ih =>
    have htarget := hpart.target_mem_vertices hpending.next_mem
    have hfresh' := mt (mem_fresh_iff hbefore hafter htarget).1 hfresh
    show Validation.follow whole _
      (⟨v.shift n, w.shift n m :: pending.map (Wire.shift n m)⟩ :: path.map (Frame.shift n m)) = _
    rw [Validation.follow]
    refine (dif_neg hfresh').trans ((if_neg ?_).trans (ih hpending.skip))
    rwa [← any_position_shift n m (⟨v, pending⟩ :: path) w.target.position] at hany

/-- The search from roots of a part closes the same cycles as on the part alone, and goes on with
the fresh positions of the others as they are. -/
theorem searchFrom {roots : List Vertex} (hroots : ∀ v ∈ roots, v ∈ part.vertices)
    (fresh : List Nat) (others : List Vertex) :
    ∃ fresh' : List Nat, fresh'.Sublist fresh ∧
      Validation.searchFrom whole (before ++ fresh.map (· + n) ++ after)
          (roots.map (Vertex.shift n) ++ others) =
        (Validation.searchFrom part fresh roots).map (List.map (Vertex.shift n)) ++
          Validation.searchFrom whole (before ++ fresh'.map (· + n) ++ after) others := by
  induction roots generalizing fresh with
  | nil => exact ⟨fresh, List.Sublist.refl _, rfl⟩
  | cons root roots ih =>
    rw [List.forall_mem_cons] at hroots
    by_cases hfresh : root.position ∈ fresh
    · have hfresh' := (mem_fresh_iff hbefore hafter hroots.1).2 hfresh
      have hrun := h.follow hwhole hpart hbefore hafter (fresh.erase root.position)
        ((PendingOf.nil part).push root)
      rw [← erase_fresh hbefore hroots.1 hfresh, List.map_cons, List.map_nil, Frame.shift,
        ← h.outgoing hwhole hroots.1] at hrun
      obtain ⟨fresh', hsub, hrest⟩ := ih hroots.2
        (Validation.follow part (fresh.erase root.position)
          [⟨root, part.outgoing root.position⟩]).2
      refine ⟨fresh', hsub.trans ((follow_sublist _ _ _).trans List.erase_sublist), ?_⟩
      rw [List.map_cons, List.cons_append, Validation.searchFrom, Validation.searchFrom,
        if_pos hfresh]
      refine (if_pos hfresh').trans ?_
      dsimp only [Vertex.position_shift]
      rw [hrun, hrest, List.map_append]
      exact (List.append_assoc _ _ _).symm
    · have hfresh' := mt (mem_fresh_iff hbefore hafter hroots.1).1 hfresh
      obtain ⟨fresh', hsub, hrest⟩ := ih hroots.2 fresh
      refine ⟨fresh', hsub, ?_⟩
      rw [List.map_cons, List.cons_append, Validation.searchFrom, Validation.searchFrom,
        if_neg hfresh, ← hrest]
      exact if_neg hfresh'

end Index.Part

/-- The report of a cycle does not depend on the positions. -/
theorem cycleReport?_shift (n : Nat) (cycle : List Vertex) :
    cycleReport? (cycle.map (Vertex.shift n)) = cycleReport? cycle := by
  cases cycle with
  | nil => rfl
  | cons first rest =>
    have hids : (rest.map (Vertex.shift n)).map Vertex.id = rest.map Vertex.id := by
      rw [List.map_map]
      rfl
    simp only [List.map_cons, cycleReport?, hids, Vertex.id_shift]

/-! ## Both graphs -/

namespace Graph.Apart

variable {g h : Graph} (ha : g.Apart h)

include ha

/-- What is collected of the owners of both graphs. -/
theorem filterMap_owners {β : Type} {f f₁ f₂ : Vertex → Option β}
    (hleft : ∀ v ∈ g.index.vertices, f v = f₁ v)
    (hright : ∀ v ∈ h.index.vertices, f (v.shift g.nodes.length) = f₂ v) :
    (g.beside h).index.owners.filterMap f =
      g.index.owners.filterMap f₁ ++ h.index.owners.filterMap f₂ := by
  rw [ha.owners, List.filterMap_append, List.filterMap_map]
  refine congrArg₂ _ (List.filterMap_congr fun v hv => ?_) (List.filterMap_congr fun v hv => ?_)
  · exact hleft v (Index.mem_vertices_of_mem_owners hv)
  · exact hright v (Index.mem_vertices_of_mem_owners hv)

/-- The ids that are repeated in both graphs. -/
theorem duplicateIds : Validation.duplicateIds (g.beside h).index =
    Validation.duplicateIds g.index ++ Validation.duplicateIds h.index := by
  have hids : ∀ g : Graph, g.index.vertices.map Vertex.id = g.nodes.map Node.id :=
    Graph.map_id_vertices
  have hdisjoint : (g.nodes.map Node.id).Disjoint (h.nodes.map Node.id) := by
    intro id hleft hright
    obtain ⟨a, hmem, rfl⟩ := List.mem_map.1 hleft
    obtain ⟨b, hmem', heq⟩ := List.mem_map.1 hright
    exact ha.ids a hmem b hmem' heq.symm
  simp only [Validation.duplicateIds, hids]
  rw [beside, List.map_append, repeatedIds_append_of_disjoint hdisjoint, List.map_append]

/-- The edges of both graphs that are not well formed. -/
theorem danglingEdges : Validation.danglingEdges (g.beside h).index =
    Validation.danglingEdges g.index ++ Validation.danglingEdges h.index := by
  have hedge : ∀ {g : Graph} {link : Link}, link ∈ g.index.links → link.edge ∈ g.edges := by
    intro g link hlink
    obtain ⟨p, hp, rfl⟩ := List.mem_map.1 hlink
    exact List.fst_mem_of_mem_zipIdx hp
  rw [Validation.danglingEdges, ha.links, List.filterMap_append, List.filterMap_map]
  refine congrArg₂ _ (List.filterMap_congr fun link hlink => ?_)
    (List.filterMap_congr fun link hlink => ?_)
  · have he := hedge hlink
    have hsource : (g.beside h).index.lookup? link.edge.source =
        (g.index.lookup? link.edge.source).map id :=
      (owner?_beside_left fun b hb => (ha.left_edges _ he b hb).1).trans Option.map_id_apply.symm
    have htarget : (g.beside h).index.lookup? link.edge.target =
        (g.index.lookup? link.edge.target).map id :=
      (owner?_beside_left fun b hb => (ha.left_edges _ he b hb).2).trans Option.map_id_apply.symm
    simp only [faultMessage_map (fun _ => rfl) hsource htarget]
  · have he := hedge hlink
    have hsource : (g.beside h).index.lookup? link.edge.source =
        (h.index.lookup? link.edge.source).map (Vertex.shift g.nodes.length) :=
      owner?_beside_right fun a hmem => (ha.right_edges _ he a hmem).1
    have htarget : (g.beside h).index.lookup? link.edge.target =
        (h.index.lookup? link.edge.target).map (Vertex.shift g.nodes.length) :=
      owner?_beside_right fun a hmem => (ha.right_edges _ he a hmem).2
    simp only [Function.comp_apply, Link.fault?_shift, Link.edge_shift,
      faultMessage_map (Vertex.node_shift _) hsource htarget]

/-- The cycles that the search closes in both graphs. -/
theorem cycles : Validation.cycles (g.beside h).index = Validation.cycles g.index ++
    (Validation.cycles h.index).map (List.map (Vertex.shift g.nodes.length)) := by
  have hi := (g.beside h).index_sound
  have hpositions : (g.beside h).index.vertices.map Vertex.position =
      g.index.positions ++ h.index.positions.map (· + g.nodes.length) := by
    refine (congrArg _ (vertices_beside g h)).trans ?_
    rw [List.map_append, List.map_map, Index.positions, Index.positions, List.map_map]
    rfl
  -- as long as the first graph is searched, the positions of the second one are fresh
  have hafter : ∀ v ∈ g.index.vertices,
      v.position + 0 ∉ h.index.positions.map (· + g.nodes.length) := by
    intro v hv hmem
    obtain ⟨p, -, hp⟩ := List.mem_map.1 hmem
    have hlt := position_lt hv
    omega
  obtain ⟨rest, hsub, hleft⟩ := ha.left_part.searchFrom hi g.index_sound
    (fun _ _ => List.not_mem_nil) hafter (fun _ => Index.mem_vertices_of_mem_owners)
    g.index.positions (h.index.owners.map (Vertex.shift g.nodes.length))
  -- what is left of the first graph does not matter to the second one
  have hbefore : ∀ v ∈ h.index.vertices, v.position + g.nodes.length ∉ rest := by
    intro v _ hmem
    obtain ⟨u, hu, hposition⟩ := List.mem_map.1 (hsub.subset hmem)
    have hlt := position_lt hu
    omega
  obtain ⟨rest', -, hright⟩ := ha.right_part.searchFrom hi h.index_sound hbefore
    (fun _ _ => List.not_mem_nil) (fun _ => Index.mem_vertices_of_mem_owners)
    h.index.positions []
  have hzero : Vertex.shift 0 = id := rfl
  simp only [hzero, List.map_id_fun, List.map_id, Nat.add_zero, List.map_id',
    List.nil_append] at hleft
  simp only [List.append_nil, Validation.searchFrom] at hright
  rw [Validation.cycles, hpositions, ha.owners, hleft, hright]
  rfl

/-- The cycles of both graphs, reported. -/
theorem cyclesDetected : Validation.cyclesDetected (g.beside h).index =
    Validation.cyclesDetected g.index ++ Validation.cyclesDetected h.index := by
  rw [Validation.cyclesDetected, ha.cycles, List.filterMap_append, List.filterMap_map]
  exact congrArg (_ ++ List.filterMap · _) (funext (cycleReport?_shift _))

/-- The numbers at boolean outputs in both graphs. -/
theorem typeMismatches : Validation.typeMismatches (g.beside h).index =
    Validation.typeMismatches g.index ++ Validation.typeMismatches h.index := by
  rw [Validation.typeMismatches, ha.wires, List.filterMap_append, List.filterMap_map]
  rfl

/-- Each check but the one for the outputs reports on both graphs what it reports on each. -/
theorem report (config : Config) {problem : Problem} (hproblem : problem ≠ .noOutputReachable) :
    Validation.report config (g.beside h).index problem =
      Validation.report config g.index problem ++ Validation.report config h.index problem := by
  have hi := (g.beside h).index_sound
  have hleft := ha.left_part
  have hright := ha.right_part
  cases problem with
  | duplicateId => exact ha.duplicateIds
  | danglingEdge => exact ha.danglingEdges
  | cycleDetected => exact ha.cyclesDetected
  | orphanNode =>
    refine ha.filterMap_owners (fun v hv => ?_) fun v hv => ?_
    · exact congrArg _ (hleft.orphanMessage?_shift hi g.index_sound hv)
    · exact congrArg _ (hright.orphanMessage?_shift hi h.index_sound hv)
  | arityMismatch =>
    exact ha.filterMap_owners (fun v hv => hleft.arityOf?_shift hi hv) fun v hv =>
      hright.arityOf?_shift hi hv
  | missingParameter => exact ha.filterMap_owners (fun _ _ => rfl) fun _ _ => rfl
  | noOutputReachable => exact absurd rfl hproblem
  | typeMismatch => exact ha.typeMismatches

end Graph.Apart

end CircuitGraph
