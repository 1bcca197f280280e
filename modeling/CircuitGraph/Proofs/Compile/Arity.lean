import CircuitGraph.Proofs.Compile.Gating
import CircuitGraph.Proofs.Graph.Flow
import CircuitGraph.Proofs.Graph.Port
import CircuitGraph.Proofs.Validation.Report

/-!
# One edge for each port

On a graph without fatal diagnostics the edges into a node and its declared ports correspond one to
one, but for the edges whose port name is padded. Wiring is checked by counting the edges at each
declared name, and an edge at a padded name is well formed without being counted: it is neither
reported nor emitted, and the node does not miss it when it is removed (`paddedHash`). Every other
edge is missed.
-/

namespace CircuitGraph

open CircuitGraph.Validation

variable {config : Config} {g : Graph}

/-- The ports of a node that has passed validation are known. -/
theorem Index.Accepted.ports_ne_unresolved {index : Index} (ha : index.Accepted config)
    (hc : config.Accepted) {v : Vertex} (hv : v ∈ index.owners) :
    v.node.ports ≠ .unresolved := by
  cases hkind : v.node.kind with
  | gadget gadget params =>
    obtain ⟨setting, hresolve⟩ := ha.resolves v hv gadget params hkind
    rw [Node.ports, hkind]
    exact (Gadget.names_ports_of_resolve hc hresolve).2
  | _ =>
    rw [Node.ports, hkind]
    exact PortSet.noConfusion

/-- A port that does not have exactly one wire is a problem. -/
theorem Validation.exists_portProblem? (port : String) {n : Nat} (h : n ≠ 1) :
    ∃ problem, portProblem? port n = some problem := by
  unfold portProblem?
  split
  · exact ⟨_, rfl⟩
  · exact absurd rfl h
  · exact ⟨_, rfl⟩

/-- A node one of whose declared ports does not have exactly one wire is reported. -/
theorem Validation.exists_mem_arityMismatches {index : Index} {v : Vertex} (hv : v ∈ index.owners)
    (hresolved : v.node.ports ≠ .unresolved) {port : String} (hport : port ∈ v.node.ports.names)
    (hcount : ((index.incoming v.position).map fun w => w.edge.targetPort).count port ≠ 1) :
    ∃ d ∈ arityMismatches index, d.problem = .arityMismatch ∧ d.nodeId = some v.id := by
  obtain ⟨problem, hproblem⟩ := exists_portProblem? port hcount
  have hmem : problem ∈ v.node.ports.names.filterMap fun port => portProblem? port
      (((index.incoming v.position).map fun w => w.edge.targetPort).count port) :=
    List.mem_filterMap.2 ⟨port, hport, hproblem⟩
  have hd : ∃ d, arityOf? index v = some d ∧ d.problem = .arityMismatch ∧
      d.nodeId = some v.id := by
    unfold arityOf?
    rw [if_neg hresolved]
    dsimp only
    split
    · rename_i hempty
      rw [List.isEmpty_iff.1 hempty] at hmem
      cases hmem
    · exact ⟨_, rfl, rfl, rfl⟩
  obtain ⟨d, hd, hkind⟩ := hd
  exact ⟨d, List.mem_filterMap.2 ⟨v, hv, hd⟩, hkind⟩

/-- A compilation with a fatal diagnostic of the validation gives no source, and shows it. -/
theorem Graph.blocked_of_mem_validate {d : Diagnostic} (h : d ∈ g.validate config)
    (hfatal : d.isFatal = true) :
    d ∈ (g.compile config).diagnostics ∧ (g.compile config).isEmitted = false := by
  have hblocked := g.blocked_of_hasFatal (List.any_eq_true.2 ⟨d, h, hfatal⟩)
  refine ⟨hblocked.diagnostics_eq ▸ h, ?_⟩
  rw [Output.isEmitted, hblocked.code_eq, Circom.isPlaceholder_placeholder]
  rfl

namespace Index.Accepted

variable (ha : g.index.Accepted config)

include ha

/-- Every edge is well formed. -/
theorem isWellFormed {e : Edge} (he : e ∈ g.edges) : g.isWellFormed e = true := by
  obtain ⟨w, hw, rfl⟩ := ha.exists_wire he
  rw [Graph.isWellFormed, Graph.linkEnds_of_mem_wires hw]
  rfl

/-- Every node is a vertex that owns its id. -/
theorem exists_owner {node : Node} (hnode : node ∈ g.nodes) :
    ∃ v ∈ g.index.owners, v.node = node := by
  obtain ⟨v, hv, hnode⟩ := g.exists_vertex hnode
  exact ⟨v, List.mem_filter.2 ⟨hv, by rw [ha.unique v hv]; rfl⟩, hnode⟩

/-- The wires that arrive at a vertex are the edges that name its id. -/
theorem map_edge_incoming {v : Vertex} (hv : v ∈ g.index.owners) :
    (g.index.incoming v.position).map Wire.edge = g.edgesInto v.id := by
  rw [g.map_edge_incoming hv]
  exact List.filter_eq_self.2 fun e he => ha.isWellFormed (List.mem_filter.1 he).1

/-- Each declared port of a node is the target of exactly one edge. -/
theorem count_edgesInto {v : Vertex} (hv : v ∈ g.index.owners) {port : String}
    (hport : port ∈ v.node.ports.names) :
    ((g.edgesInto v.id).map Edge.targetPort).count port = 1 := by
  rw [← ha.map_edge_incoming hv, List.map_map]
  exact ha.count_targetPort hv hport

/-- An edge arrives at a port of its target. -/
theorem contains_of_mem_edgesInto {v : Vertex} (hv : v ∈ g.index.owners) {e : Edge}
    (he : e ∈ g.edgesInto v.id) : v.node.ports.contains e.targetPort = true := by
  have hi := g.index_sound
  rw [← ha.map_edge_incoming hv] at he
  obtain ⟨w, hw, rfl⟩ := List.mem_map.1 he
  obtain ⟨hwire, hposition⟩ := Index.mem_incoming.1 hw
  have htarget : w.target = v :=
    hi.eq_of_position_eq (Index.mem_vertices_of_mem_owners (hi.target_mem_owners hwire))
      (Index.mem_vertices_of_mem_owners hv) hposition
  rw [← htarget]
  exact hi.target_port w hwire

/-- The target ports of the edges into a node, without the padded ones, are the declared ports. -/
theorem perm_edgesInto (hc : config.Accepted) {v : Vertex} (hv : v ∈ g.index.owners) :
    (((g.edgesInto v.id).map Edge.targetPort).filter fun port => !isPadded port).Perm
      v.node.ports.names := by
  rw [List.perm_iff_count]
  intro port
  by_cases hport : port ∈ v.node.ports.names
  · rw [List.count_filter (by simpa using Node.isPadded_of_mem_names hport),
      ha.count_edgesInto hv hport, List.count_eq_one_of_mem v.node.nodup_names_ports hport]
  · rw [List.count_eq_zero_of_not_mem hport, List.count_eq_zero]
    intro hmem
    obtain ⟨hedge, hplain⟩ := List.mem_filter.1 hmem
    obtain ⟨e, he, rfl⟩ := List.mem_map.1 hedge
    -- a plain name at which an edge arrives would be declared
    exact hport (PortSet.mem_names_of_contains (ha.contains_of_mem_edgesInto hv he)
      (ha.ports_ne_unresolved hc hv) (by simpa using hplain))

end Index.Accepted

/-- The edges into the nodes of a graph and the declared ports correspond one to one, but for the
edges at padded names. -/
structure Graph.WellWired (g : Graph) : Prop where
  /-- Every edge is well formed. -/
  wellFormed : ∀ e ∈ g.edges, g.isWellFormed e = true
  /-- No port of a node is declared twice. -/
  nodup : ∀ node ∈ g.nodes, node.ports.names.Nodup
  /-- The target ports of the edges into a node, without the padded ones, are the declared ports,
  each of them once. -/
  ports : ∀ node ∈ g.nodes,
    (((g.edgesInto node.id).map Edge.targetPort).filter fun port => !isPadded port).Perm
      node.ports.names
  /-- A padded name writes the position of a declared port. -/
  padded : ∀ node ∈ g.nodes, ∀ e ∈ g.edgesInto node.id, isPadded e.targetPort = true →
    ∃ k, indexedPosition? e.targetPort = some k ∧ hashPort k ∈ node.ports.names

namespace Index.Accepted

variable (ha : g.index.Accepted config)

include ha

/-- A graph that has passed validation is wired port by port. -/
theorem wellWired (hc : config.Accepted) : g.WellWired where
  wellFormed _ he := ha.isWellFormed he
  nodup node _ := node.nodup_names_ports
  ports node hnode := by
    obtain ⟨v, hv, rfl⟩ := ha.exists_owner hnode
    exact ha.perm_edgesInto hc hv
  padded node hnode e he hpadded := by
    obtain ⟨v, hv, rfl⟩ := ha.exists_owner hnode
    exact PortSet.exists_of_isPadded (ha.contains_of_mem_edgesInto hv he)
      (fun name => Node.isPadded_of_mem_names) (ha.ports_ne_unresolved hc hv) hpadded

/-- When an edge at a plain name is removed, none is left that names its target and port. -/
theorem count_incoming_of_removed {v : Vertex} (hv : v ∈ g.index.owners)
    {before after : List Edge} {e : Edge} (hsplit : g.edges = before ++ e :: after)
    (htarget : e.target = v.id) (hport : e.targetPort ∈ v.node.ports.names) :
    (((Graph.mk g.nodes (before ++ after)).index.incoming v.position).map
      fun w => w.edge.targetPort).count e.targetPort = 0 := by
  let rest : Graph := ⟨g.nodes, before ++ after⟩
  have hone := ha.count_edgesInto hv hport
  -- the removed edge is the one that is counted at the port
  have hzero : ((rest.edgesInto v.id).map Edge.targetPort).count e.targetPort = 0 := by
    have hself : (e.target == v.id) = true := beq_iff_eq.2 htarget
    rw [Graph.edgesInto, hsplit, List.filter_append, List.filter_cons, if_pos hself,
      List.map_append, List.map_cons, List.count_append, List.count_cons_self] at hone
    rw [Graph.edgesInto, List.filter_append, List.map_append, List.count_append]
    omega
  have hsub : ((rest.index.incoming v.position).map fun w => w.edge.targetPort).Sublist
      ((rest.edgesInto v.id).map Edge.targetPort) := by
    -- the nodes are the same as before, so the vertex still owns its id
    have howner : v ∈ rest.index.owners := hv
    rw [show (fun w : Wire => w.edge.targetPort) = Edge.targetPort ∘ Wire.edge from rfl,
      ← List.map_map, rest.map_edge_incoming howner]
    exact List.filter_sublist.map _
  exact Nat.eq_zero_of_le_zero (hzero ▸ hsub.count_le _)

end Index.Accepted

/-- With an accepted configuration a graph without fatal diagnostics has one edge for each declared
port of each node, and each of these edges is missed when it is removed: its target is reported, and
no source is given. -/
theorem Graph.wellWired_of_hasFatal (config : Config) (hc : config.check = .ok ()) (g : Graph)
    (h : hasFatal (g.validate config) = false) :
    g.WellWired ∧ ∀ before e after, g.edges = before ++ e :: after → isPadded e.targetPort = false →
      (∃ d ∈ ((Graph.mk g.nodes (before ++ after)).compile config).diagnostics,
        d.problem = .arityMismatch ∧ d.nodeId = some e.target) ∧
      ((Graph.mk g.nodes (before ++ after)).compile config).isEmitted = false := by
  have hc := Config.accepted_of_check hc
  have ha := accepted_of_hasFatal g.index_sound h
  refine ⟨ha.wellWired hc, fun before e after hsplit hplain => ?_⟩
  have he : e ∈ g.edges := hsplit ▸ List.mem_append_right _ List.mem_cons_self
  obtain ⟨w, hw, rfl⟩ := ha.exists_wire he
  have howner := g.index_sound.target_mem_owners hw
  obtain ⟨-, hid⟩ := owner?_eq_some (g.index_sound.target_owner w hw)
  have hresolved := ha.ports_ne_unresolved hc howner
  have hport : w.edge.targetPort ∈ w.target.node.ports.names :=
    PortSet.mem_names_of_contains (g.index_sound.target_port w hw) hresolved hplain
  have hcount := ha.count_incoming_of_removed howner hsplit hid.symm hport
  -- the target owns its id in the smaller graph as well, for the nodes are the same
  have howner' : w.target ∈ (Graph.mk g.nodes (before ++ after)).index.owners := howner
  obtain ⟨d, hd, hproblem, hnode⟩ :=
    exists_mem_arityMismatches howner' hresolved hport (by rw [hcount]; decide)
  have hreported : d ∈ (Graph.mk g.nodes (before ++ after)).validate config :=
    mem_validate_iff.2 (by rwa [hproblem])
  obtain ⟨hmem, hblocked⟩ := blocked_of_mem_validate hreported (isFatal_of_mem_arityMismatches hd)
  exact ⟨⟨d, hmem, hproblem, hnode.trans (congrArg some hid)⟩, hblocked⟩

/-- A hash of one value whose port is wired twice: under its own name and under a padded one. -/
def paddedHash : Graph where
  nodes :=
    [Exhibit.secret "x" "X", Exhibit.gadget "h" .hash [("inputs", "1")],
     Exhibit.output "o" .number "Digest"]
  edges := [Graph.wire "x" "h" "in0", Graph.wire "x" "h" "in00", Graph.wire "h" "o" "in"]

namespace paddedHash

/-- The hash without its padded wire. -/
def unpadded : Graph :=
  ⟨paddedHash.nodes, [Graph.wire "x" "h" "in0", Graph.wire "h" "o" "in"]⟩

/-- The input. -/
def x : Vertex := ⟨0, Exhibit.secret "x" "X"⟩

/-- The hash. -/
def h : Vertex := ⟨1, Exhibit.gadget "h" .hash [("inputs", "1")]⟩

/-- The output. -/
def o : Vertex := ⟨2, Exhibit.output "o" .number "Digest"⟩

/-- The index of the three nodes with wires between them. -/
def linked (wires : List Wire) : Index where
  vertices := [x, h, o]
  links := wires.map fun w => ⟨w.position, w.edge, .ok (w.source, w.target)⟩
  wires := wires

/-- The hash passes validation without any report, with and without its padded wire. -/
theorem validate_eq_nil {g : Graph} (hg : g = paddedHash ∨ g = unpadded) : g.validate {} = [] := by
  have hpadded : paddedHash.index =
      linked [⟨0, Graph.wire "x" "h" "in0", x, h⟩, ⟨1, Graph.wire "x" "h" "in00", x, h⟩,
        ⟨2, Graph.wire "h" "o" "in", h, o⟩] := rfl
  have hunpadded : unpadded.index =
      linked [⟨0, Graph.wire "x" "h" "in0", x, h⟩, ⟨1, Graph.wire "h" "o" "in", h, o⟩] := rfl
  -- the three checks that search the wires are not structural, so each check is evaluated apart
  have hempty : duplicateIds g.index = [] ∧ danglingEdges g.index = [] ∧
      cyclesDetected g.index = [] ∧ orphans g.index = [] ∧ arityMismatches g.index = [] ∧
      parameters {} g.index = [] ∧ unreachableOutput g.index = [] ∧
      typeMismatches g.index = [] := by
    rcases hg with rfl | rfl
    · rw [hpadded]
      exact ⟨by decide, by decide, by cbv, by cbv, by decide, by decide, by cbv, by decide⟩
    · rw [hunpadded]
      exact ⟨by decide, by decide, by cbv, by cbv, by decide, by decide, by cbv, by decide⟩
  obtain ⟨hids, hedges, hcycles, horphans, harity, hparams, houtput, htypes⟩ := hempty
  rw [Graph.validate, Index.validate, hids, hedges, hcycles, horphans, harity, hparams, houtput,
    htypes]
  rfl

/-- The hash passes validation. -/
theorem not_hasFatal {g : Graph} (hg : g = paddedHash ∨ g = unpadded) :
    hasFatal (g.validate {}) = false := by
  rw [validate_eq_nil hg]
  rfl

end paddedHash

/-- The plain wire of the hash is missed when it is removed, although a padded one is left. -/
theorem Graph.wellWired_paddedHash :
    ({} : Config).check = .ok () ∧ hasFatal (paddedHash.validate {}) = false ∧
      isPadded (Graph.wire "x" "h" "in0").targetPort = false ∧ paddedHash.WellWired ∧
      let g := Graph.mk paddedHash.nodes [Graph.wire "x" "h" "in00", Graph.wire "h" "o" "in"]
      (∃ d ∈ (g.compile {}).diagnostics, d.problem = .arityMismatch ∧ d.nodeId = some "h") ∧
        (g.compile {}).isEmitted = false := by
  have hfatal := paddedHash.not_hasFatal (.inl rfl)
  have hplain : isPadded (Graph.wire "x" "h" "in0").targetPort = false := by decide
  obtain ⟨hwired, hmissed⟩ := Graph.wellWired_of_hasFatal {} rfl paddedHash hfatal
  exact ⟨rfl, hfatal, hplain, hwired,
    hmissed [] _ [Graph.wire "x" "h" "in00", Graph.wire "h" "o" "in"] rfl hplain⟩

/-- The padded wire of the hash arrives at no declared port, and nobody misses it when it is
removed. -/
theorem paddedHash.not_missed :
    ({} : Config).check = .ok () ∧ hasFatal (paddedHash.validate {}) = false ∧
      ∃ node ∈ paddedHash.nodes, ∃ before e after, paddedHash.edges = before ++ e :: after ∧
        e.target = node.id ∧ e.targetPort ∉ node.ports.names ∧
        ¬ ((paddedHash.edgesInto node.id).map Edge.targetPort).Perm node.ports.names ∧
        ((Graph.mk paddedHash.nodes (before ++ after)).compile {}).isEmitted = true ∧
        ∀ d ∈ ((Graph.mk paddedHash.nodes (before ++ after)).compile {}).diagnostics,
          d.problem ≠ .arityMismatch := by
  have hremoved := not_hasFatal (.inr rfl)
  have hc : ({} : Config).Accepted := Config.accepted_of_check rfl
  have hquiet : (unpadded.compile {}).diagnostics = [] :=
    (Graph.emitted_of_hasFatal hc hremoved).diagnostics_eq.trans (validate_eq_nil (.inr rfl))
  refine ⟨rfl, not_hasFatal (.inl rfl), h.node, by decide, [Graph.wire "x" "h" "in0"],
    Graph.wire "x" "h" "in00", [Graph.wire "h" "o" "in"], rfl, rfl, by decide, fun hperm => ?_,
    (Graph.isEmitted_compile hc).2 hremoved, ?_⟩
  · exact absurd hperm.length_eq (by decide)
  · change ∀ d ∈ (unpadded.compile {}).diagnostics, d.problem ≠ .arityMismatch
    rw [hquiet]
    exact List.forall_mem_nil _

end CircuitGraph
