import CircuitGraph.Graph.Gallery
import CircuitGraph.Proofs.Circom.Emission
import CircuitGraph.Proofs.Graph.Flow
import CircuitGraph.Proofs.Order.Verdict

/-!
# When emission fails

Emission runs on every graph that can be ordered, validated or not. Whether a node is refused can be
told from the graph alone (`Graph.refusal?`): its parameters cannot be used, or else one of its
declared ports is not the target of any well-formed edge. Edges into names that are only aliases of
a port do not count, and of several edges into one port the first one is taken.

`Graph.EmissionVerdict` says that emission fails with the refusal of the first node that has one,
and which values the gates of an emitted order take. The invariant of the run is that everything
which is wired to the next vertex has a result already (`Emits.isSome_lookup_source`); hence a port
has a value exactly when it is wired (`Emits.isSome_value?`).
-/

namespace CircuitGraph

open CircuitGraph.Circom

/-! ## Nodes that are refused -/

namespace Graph

/-- The first well-formed edge into a port of a node. -/
def firstInto? (g : Graph) (node : Node) (port : String) : Option Edge :=
  g.edges.find? fun e => g.isWellFormed e && e.target == node.id && e.targetPort == port

/-- Why a node of a graph is refused. -/
def refusal? (config : Config) (g : Graph) (node : Node) : Option EmitError :=
  node.refusal? config fun port => (g.firstInto? node port).isSome

/-- A node of a graph can be emitted. -/
structure Emittable (config : Config) (g : Graph) (node : Node) : Prop where
  /-- The parameters of a gadget resolve. -/
  resolves : ∀ gadget params, node.kind = .gadget gadget params →
    ∃ setting, gadget.resolve config params = .ok setting
  /-- Each declared port is the target of a well-formed edge. -/
  wired : ∀ port ∈ node.ports.names, ∃ e ∈ g.edges,
    g.isWellFormed e = true ∧ e.target = node.id ∧ e.targetPort = port

/-- A node can be emitted when it is not refused. -/
theorem refusal?_eq_none_iff {config : Config} {g : Graph} {node : Node} :
    g.refusal? config node = none ↔ g.Emittable config node := by
  have hfirst : ∀ port, (g.firstInto? node port).isSome = true ↔
      ∃ e ∈ g.edges, g.isWellFormed e = true ∧ e.target = node.id ∧ e.targetPort = port := by
    simp [firstInto?, and_assoc]
  rw [refusal?, Node.refusal?_eq_none_iff, Node.paramError?_eq_none_iff]
  simp only [hfirst]
  exact ⟨fun h => ⟨h.1, h.2⟩, fun h => ⟨h.resolves, h.wired⟩⟩

/-- The first edge into a port of a vertex is that of the first wire. -/
theorem firstInto?_eq {g : Graph} {v : Vertex} (hv : v ∈ g.index.owners) (port : String) :
    g.firstInto? v.node port =
      ((g.index.incoming v.position).find? fun w => w.edge.targetPort == port).map Wire.edge := by
  calc g.firstInto? v.node port
      = ((g.edgesInto v.id).filter g.isWellFormed).find? fun e => e.targetPort == port := by
        rw [firstInto?, edgesInto, List.filter_filter, List.find?_filter]
        simp only [Bool.decide_and, Bool.decide_eq_true]
        rfl
    _ = ((g.index.incoming v.position).map Wire.edge).find? fun e => e.targetPort == port := by
        rw [map_edge_incoming g hv]
    _ = _ := by
        rw [List.find?_map]
        rfl

end Graph

namespace Circom

/-! ## The run -/

/-- When all that is wired to a vertex has a result, the value at a port is that of the first wire
into the port. -/
theorem Emission.value?_eq_bind {index : Index} {results : List (Nat × Ref)} {v : Vertex}
    (h : ∀ w ∈ index.incoming v.position, (results.lookup w.source.position).isSome = true)
    (port : String) :
    value? index results v port =
      ((index.incoming v.position).find? fun w => w.edge.targetPort == port).bind fun w =>
        results.lookup w.source.position := by
  unfold value?
  generalize index.incoming v.position = wires at h
  induction wires with
  | nil => rfl
  | cons w wires ih =>
    rw [List.findSome?_cons]
    by_cases hport : w.edge.targetPort = port
    · obtain ⟨r, hr⟩ := Option.isSome_iff_exists.1 (h w List.mem_cons_self)
      rw [if_pos hport, List.find?_cons_of_pos (by simpa using hport), Option.bind_some, hr]
    · rw [if_neg hport, List.find?_cons_of_neg (by simpa using hport)]
      exact ih fun u hu => h u (List.mem_cons_of_mem _ hu)

variable {config : Config} {g : Graph} {vs : List Vertex} {s : Emission} {v : Vertex}
  {error : EmitError}

/-- At the next vertex of an order a port has a value when it is wired. -/
theorem Emits.isSome_value? (h : Emits config g.index vs s) (ho : g.index.Orders (vs ++ [v]))
    (port : String) :
    (Emission.value? g.index s.results v port).isSome = (g.firstInto? v.node port).isSome := by
  have hsources : ∀ w ∈ g.index.incoming v.position,
      (s.results.lookup w.source.position).isSome = true :=
    fun w hw => h.isSome_lookup_source g.index_sound ho hw
  rw [Emission.value?_eq_bind hsources, Graph.firstInto?_eq (ho.owners v (by simp))]
  cases hfirst : (g.index.incoming v.position).find? fun w => w.edge.targetPort == port with
  | none => rfl
  | some w => exact hsources w (List.mem_of_find?_eq_some hfirst)

/-- The next vertex of an order fails when its node is refused. -/
theorem Emits.step_eq_error (hc : config.Accepted) (h : Emits config g.index vs s)
    (ho : g.index.Orders (vs ++ [v])) :
    Emission.step config g.index s v = .error error ↔
      g.refusal? config v.node = some error := by
  rw [Graph.refusal?, ← funext (h.isSome_value? ho), ← Gate.ofNode_eq_error hc]
  exact bind_pure_eq_error

/-- Emitting an order fails with the refusal of the first node that has one. -/
theorem foldlM_step_eq_error (hc : config.Accepted) (ho : g.index.Orders vs) :
    vs.foldlM (Emission.step config g.index) (Emission.initial config) = .error error ↔
      vs.findSome? (fun v => g.refusal? config v.node) = some error := by
  induction vs using List.reverseRecOn generalizing error with
  | nil => simp [pure, Except.pure]
  | append_singleton vs v ih =>
    simp only [List.foldlM_append, List.foldlM_cons, List.foldlM_nil, bind_pure]
    rw [List.findSome?_append]
    cases hrun : vs.foldlM (Emission.step config g.index) (Emission.initial config) with
    | error e =>
      rw [(ih ho.init).1 hrun, Option.some_or]
      simp [bind, Except.bind]
    | ok s =>
      -- none of the vertices before is refused, so the last one decides
      have hnone : vs.findSome? (fun v => g.refusal? config v.node) = none := by
        by_contra hsome
        obtain ⟨e, he⟩ := Option.ne_none_iff_exists'.1 hsome
        cases hrun.symm.trans ((ih ho.init).2 he)
      rw [hnone, Option.none_or, List.findSome?_singleton]
      exact (emits_iff.1 hrun).step_eq_error hc ho

/-- Along an order emission succeeds when no node is refused. -/
theorem exists_emits_iff (hc : config.Accepted) (ho : g.index.Orders vs) :
    (∃ s, Emits config g.index vs s) ↔ ∀ v ∈ vs, g.Emittable config v.node := by
  simp only [← emits_iff, ← Graph.refusal?_eq_none_iff]
  rw [← List.findSome?_eq_none_iff, ← not_iff_not, ← ne_eq, Option.ne_none_iff_exists']
  simp only [← foldlM_step_eq_error hc ho]
  cases vs.foldlM (Emission.step config g.index) (Emission.initial config) with
  | error e => simp
  | ok s => simp

end Circom

/-! ## The outcome -/

/-- A value comes to a port of a node in an order: it is the result of the node from which the first
well-formed edge into the port comes. -/
def Graph.Brings (g : Graph) (order : LinearOrder) (fragment : Node → Fragment) (node : Node)
    (port : String) (r : Ref) : Prop :=
  ∃ e, g.firstInto? node port = some e ∧
    ∃ source ∈ order.vertices, source.id = e.source ∧ (fragment source.node).result = some r

/-- When the order of a graph is emitted, and to what; and when and why it is not. -/
structure Graph.EmissionVerdict (config : Config) (g : Graph) (order : LinearOrder) : Prop where
  /-- There is a source when each node of the order can be emitted. -/
  ok_iff : (∃ code, tryEmit config order = .ok code) ↔
    ∀ v ∈ order.vertices, g.Emittable config v.node
  /-- Emission fails with the refusal of the first node of the order that has one. -/
  error_iff : ∀ error, tryEmit config order = .error error ↔
    order.vertices.findSome? (fun v => g.refusal? config v.node) = some error
  /-- The source is made of one fragment for each node, that of a gate for the node. To each port
  the gate takes what the first edge into the port brings. -/
  operands : ∀ code, tryEmit config order = .ok code → ∃ fragment : Node → Fragment,
    code = (SourceUnit.ofFragments config (order.vertices.map fun v => fragment v.node)).text ∧
      ∀ v ∈ order.vertices, ∃ (gate : Gate) (names : NameTable), gate.IsOf config v.node.kind ∧
        (gate.fragment config v.node names).1 = fragment v.node ∧
        List.Forall₂ (g.Brings order fragment v.node) v.node.ports.names gate.operands

namespace Circom

variable {config : Config} {g : Graph} {order : LinearOrder} {s : Emission}

/-- The value at a port is what the first edge into the port brings. -/
theorem Emits.brings_of_value? (ho : g.index.Orders order.vertices)
    (h : Emits config g.index order.vertices s) {fragment : Node → Fragment}
    (hholds : ∀ v ∈ order.vertices, s.Holds config g.index v (fragment v.node)) {v : Vertex}
    (hv : v ∈ order.vertices) {port : String} {r : Ref}
    (hvalue : Emission.value? g.index s.results v port = some r) :
    g.Brings order fragment v.node port r := by
  have hvertices : ∀ u ∈ order.vertices, u ∈ g.index.vertices := fun u hu =>
    Index.mem_vertices_of_mem_owners (ho.owners u hu)
  have hsource : ∀ w ∈ g.index.incoming v.position, w.source ∈ order.vertices := by
    intro w hw
    obtain ⟨before, after, hsplit⟩ := List.append_of_mem hv
    rw [hsplit]
    exact List.mem_append_left _ (ho.sources_before before v after hsplit w hw)
  have hresult : ∀ w ∈ g.index.incoming v.position,
      (s.results.lookup w.source.position).isSome = true := fun w hw =>
    h.isSome_lookup g.index_sound hvertices (hsource w hw)
      (g.index_sound.source_port w (Index.mem_incoming.1 hw).1)
  rw [Emission.value?_eq_bind hresult] at hvalue
  obtain ⟨w, hfirst, hlookup⟩ := Option.bind_eq_some_iff.1 hvalue
  have hw : w ∈ g.index.incoming v.position := List.mem_of_find?_eq_some hfirst
  refine ⟨w.edge, ?_, w.source, hsource w hw, ?_, ?_⟩
  · rw [Graph.firstInto?_eq (ho.owners v hv), hfirst, Option.map_some]
  · exact (owner?_eq_some (g.index_sound.source_owner w (Index.mem_incoming.1 hw).1)).2
  · exact (hholds w.source (hsource w hw)).result.symm.trans hlookup

/-- The outcome of emission along an order. -/
theorem emissionVerdict_of_orders (hc : config.Accepted)
    (hids : (g.index.vertices.map Vertex.id).Nodup) (hindex : order.index = g.index)
    (ho : g.index.Orders order.vertices) : g.EmissionVerdict config order where
  ok_iff := by
    rw [← exists_emits_iff hc ho, ← hindex]
    constructor
    · rintro ⟨code, hcode⟩
      obtain ⟨u, hu, -⟩ := tryEmit_eq_ok.1 hcode
      obtain ⟨s, hs, -⟩ := emitUnit_eq_ok.1 hu
      exact ⟨s, hs⟩
    · rintro ⟨s, hs⟩
      exact ⟨_, tryEmit_eq_ok.2 ⟨_, emitUnit_eq_ok.2 ⟨s, hs, rfl⟩, rfl⟩⟩
  error_iff error := by
    rw [← foldlM_step_eq_error hc ho, ← hindex]
    exact bind_pure_eq_error.trans bind_pure_eq_error
  operands := by
    intro code hcode
    obtain ⟨u, hu, rfl⟩ := tryEmit_eq_ok.1 hcode
    obtain ⟨s, hs, rfl⟩ := emitUnit_eq_ok.1 hu
    rw [hindex] at hs
    obtain ⟨fragment, hfragments, hholds⟩ :=
      hs.exists_fragments g.index_sound ho
        (ho.nodup_nodes fun _ hv _ hu => List.inj_on_of_nodup_map hids hv hu)
    refine ⟨fragment, by rw [hfragments], fun v hv => ?_⟩
    obtain ⟨gate, names, hfits, hfragment⟩ := (hholds v hv).gate
    refine ⟨gate, names, hfits.isOf, hfragment, ?_⟩
    exact (hfits.forall₂_values hc).imp fun port r hvalue => hs.brings_of_value? ho hholds hv hvalue

end Circom

/-- On a graph that can be ordered emission fails exactly when it must, with or without the vertices
that feed no output, and whether the graph is valid or not. -/
theorem Graph.emissionVerdict (config : Config) (hc : config.check = .ok ()) (g : Graph)
    {linear : LinearOrder} (h : g.linearize = .ok linear) :
    g.EmissionVerdict config linear ∧ g.EmissionVerdict config linear.pruned := by
  have hc := Config.accepted_of_check hc
  have hids := g.index_sound.nodup_ids_of_linearize h
  obtain ⟨hindex, -, ho⟩ := Index.linearize_spec g.index_sound h
  have hpruned : g.index.Orders linear.pruned.vertices := by
    rw [LinearOrder.pruned, hindex]
    exact ho.pruned g.index_sound
  exact ⟨emissionVerdict_of_orders hc hids hindex ho,
    emissionVerdict_of_orders hc hids hindex hpruned⟩

/-- A sum with two edges into its first port, beside one that lacks an operand and feeds no
output. -/
def overwired : Graph where
  nodes :=
    [Exhibit.secret "x" "First", Exhibit.operation "draft" .add, Exhibit.secret "y" "Second",
     Exhibit.operation "sum" .add, Exhibit.output "o" .number "Sum"]
  edges :=
    [Graph.wire "x" "sum" "a", Graph.wire "y" "sum" "a", Graph.wire "y" "sum" "b",
     Graph.wire "x" "draft" "a", Graph.wire "sum" "o" "in"]

/-- The sum that lacks an operand is refused, and without it there is a source. -/
theorem emissionVerdict_overwired :
    ({} : Config).check = .ok () ∧ ∃ linear, overwired.linearize = .ok linear ∧
      overwired.EmissionVerdict {} linear ∧ overwired.EmissionVerdict {} linear.pruned ∧
      tryEmit {} linear = .error (.unwiredPort "draft" "b") ∧
      ∃ code, tryEmit {} linear.pruned = .ok code := by
  have hlinear : overwired.linearize = .ok ⟨overwired.index, overwired.vertices⟩ := by cbv
  obtain ⟨hwhole, hpruned⟩ := Graph.emissionVerdict {} rfl overwired hlinear
  have hnone : (LinearOrder.pruned ⟨overwired.index, overwired.vertices⟩).vertices.findSome?
      (fun v => overwired.refusal? {} v.node) = none := by cbv
  refine ⟨rfl, _, hlinear, hwhole, hpruned, (hwhole.error_iff _).2 (by cbv), ?_⟩
  exact hpruned.ok_iff.2 fun v hv =>
    Graph.refusal?_eq_none_iff.1 (List.findSome?_eq_none_iff.1 hnone v hv)

end CircuitGraph
