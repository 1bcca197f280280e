import CircuitGraph.Proofs.Circom.Relabel
import CircuitGraph.Proofs.Compile.Gating
import CircuitGraph.Proofs.Graph.Relabel
import CircuitGraph.Proofs.Validation.Image

/-!
# Ids and labels only show in names

Ids and labels are free text, and parts of them become identifiers of the source. What else becomes
of them? `Graph.compilesRelabelled_of_hasFatal` says nothing else: when the nodes of a graph get
other ids, in the same order, and other labels, the same source comes out under other names, with
the same metrics. The names of the two sources stand in one-to-one correspondence: those that are
given out in the one run are paired with those that are given out in the other, in the order in
which they are given out, together with the names derived from them. The two runs need not agree on
which names collide, and so on which of them get a number.
-/

namespace CircuitGraph

open CircuitGraph.Circom CircuitGraph.Validation

/-- A graph is emitted as a unit, and while it is, the name table gives out the names. -/
def Graph.GivesOut (config : Config) (g : Graph) (as : List Allocation) (u : SourceUnit) : Prop :=
  ∃ order s, g.linearize = .ok order ∧ Emits config g.index order.pruned.vertices s ∧
    (NameTable.initial config.templateName).serve (requestsOf order.pruned.vertices) =
      (as, s.names) ∧
    u = .ofFragments config s.fragments

/-- The sources of two graphs differ in their names only. -/
structure Graph.RenamedBy (config : Config) (g g' : Graph) (f : String → String)
    (as as' : List Allocation) (u : SourceUnit) : Prop where
  /-- The names of the one source are given out while it is emitted. -/
  givesOut : g.GivesOut config as u
  /-- The names of the other source, which is the renamed one, are given out while it is emitted. -/
  givesOut' : g'.GivesOut config as' (u.rename f)
  /-- Names are paired in the order in which they are given out, with the derived names. -/
  renames : Renames f as as'
  /-- All names of the one source are taken to those of the other, in this order. -/
  map_names : (as.flatMap Allocation.names).map f = as'.flatMap Allocation.names
  /-- No name is given out twice for the one source. -/
  nodup_names : (as.flatMap Allocation.names).Nodup
  /-- No name is given out twice for the other source. -/
  nodup_names' : (as'.flatMap Allocation.names).Nodup
  /-- Every name that is written has been given out. -/
  mem_names : ∀ n, .name n ∈ u.pieces → n ∈ as.flatMap Allocation.names
  /-- The one source is made of its pieces. -/
  code_eq : (g.compile config).code = render u.pieces
  /-- The other source is made of the same pieces, with the names replaced. -/
  code_eq' : (g'.compile config).code = render (u.pieces.map (Piece.rename f))

/-- A graph compiles like another one but for the names. -/
structure Graph.CompilesRelabelled (config : Config) (g g' : Graph) : Prop where
  /-- No diagnostic is fatal. -/
  not_fatal : hasFatal (g'.compile config).diagnostics = false
  /-- Source comes out. -/
  isEmitted : (g'.compile config).isEmitted = true
  /-- The sizes and the estimates are the same. -/
  metrics_eq : (g'.compile config).metrics = (g.compile config).metrics
  /-- The sources differ in their names only. -/
  renamed : ∃ f as as' u, g.RenamedBy config g' f as as' u

variable {config : Config}

/-- The label does not decide about the cost. -/
theorem Config.nodeCost?_eq_of_unlabelled {node other : Node}
    (h : node.kind.unlabelled = other.kind.unlabelled) :
    config.nodeCost? node = config.nodeCost? other :=
  Node.eq_of_unlabelled (fun kind => config.nodeCost? ⟨"", kind⟩)
    (fun kind => by cases kind <;> rfl) h

/-- Nodes with the same costs have the same estimate. -/
theorem Estimate.ofNodes_congr {nodes nodes' : List Node}
    (h : nodes'.map config.nodeCost? = nodes.map config.nodeCost?) :
    Estimate.ofNodes config nodes' = .ofNodes config nodes := by
  have htotal : ∀ nodes : List Node, config.totalCost? nodes =
      (nodes.map config.nodeCost?).foldlM (fun total cost => cost.map (total + ·)) 0 := by
    intro nodes
    rw [List.foldlM_map]
    rfl
  rw [ofNodes, ofNodes, htotal, htotal, h]

namespace Graph

variable {g : Graph} {rename : String → String} {label : Node → String}

/-- A vertex is emitted like the relabelled one. -/
theorem alikeAt_relabel (ha : g.index.Accepted config)
    (hrename : ∀ u ∈ g.nodes, ∀ v ∈ g.nodes, u.id < v.id → rename u.id < rename v.id) {v : Vertex}
    (hv : v ∈ g.index.vertices) :
    AlikeAt (Vertex.relabel rename label) g.index (g.relabel rename label).index v where
  unlabelled_eq := NodeKind.unlabelled_withLabel _ _
  position_eq := rfl
  incoming_eq := by
    have himage := image_relabel (nodup_ids_of_accepted ha) hrename label ha.links
    have hmap := congrArg (fun l => l.map fun k => (k.2.1, k.2.2.position))
      (himage.map_incoming g.index_sound hv rfl)
    rw [List.map_map, List.map_map] at hmap
    exact hmap

/-- What is emitted along the order of a graph is given out. -/
theorem givesOut_of_emits {order : LinearOrder} (horder : g.linearize = .ok order) {s : Emission}
    (hs : Emits config g.index order.pruned.vertices s) :
    g.GivesOut config (allocationsOf config order.pruned.vertices)
      (.ofFragments config s.fragments) :=
  ⟨order, s, horder, hs, Prod.ext rfl hs.names_eq.symm, rfl⟩

/-- The source of the relabelled graph differs from that of the graph in its names only. -/
theorem exists_renamedBy_relabel (hc : config.Accepted)
    (h : hasFatal (g.validate config) = false)
    (h' : hasFatal ((g.relabel rename label).validate config) = false) {order order' : LinearOrder}
    (horder : g.linearize = .ok order) (horder' : (g.relabel rename label).linearize = .ok order')
    (hpruned : order'.pruned.vertices = order.pruned.vertices.map (Vertex.relabel rename label))
    (halike : ∀ v ∈ order.pruned.vertices,
      AlikeAt (Vertex.relabel rename label) g.index (g.relabel rename label).index v) :
    ∃ f as as' u, g.RenamedBy config (g.relabel rename label) f as as' u := by
  obtain ⟨s, hs, hcode⟩ := exists_emits_pruned hc h horder
  obtain ⟨s', hs', hcode'⟩ := exists_emits_pruned hc h' horder'
  have hgives' := givesOut_of_emits horder' hs'
  rw [hpruned] at hs' hgives'
  obtain ⟨f, hf⟩ := exists_renames
    (map_suffixes_allocationsOf config fun v hv => (halike v hv).unlabelled_eq)
    (nodup_allocationsOf config order.pruned.vertices)
  have hunit : SourceUnit.ofFragments config s'.fragments =
      (SourceUnit.ofFragments config s.fragments).rename f := by
    rw [(hs.rename hs' halike hf).1, SourceUnit.ofFragments_rename]
  refine ⟨f, allocationsOf config order.pruned.vertices, allocationsOf config
    (order.pruned.vertices.map (Vertex.relabel rename label)), .ofFragments config s.fragments, ?_⟩
  exact
    { givesOut := givesOut_of_emits horder hs
      givesOut' := hunit ▸ hgives'
      renames := hf
      map_names := hf.map_flatMap_names
      nodup_names := nodup_allocationsOf config order.pruned.vertices
      nodup_names' := nodup_allocationsOf config _
      mem_names := fun _ hn => hs.mem_names_of_mem_pieces hn
      code_eq := by rw [hcode, SourceUnit.render_pieces]
      code_eq' := by
        rw [hcode', hunit, ← SourceUnit.render_pieces, SourceUnit.pieces_rename] }

/-- Other ids in the same order and other labels show in the names only. -/
theorem compilesRelabelled_of_hasFatal (config : Config) (hc : config.check = .ok ()) (g : Graph)
    (h : hasFatal (g.validate config) = false) (rename : String → String)
    (hrename : ∀ u ∈ g.nodes, ∀ v ∈ g.nodes, u.id < v.id → rename u.id < rename v.id)
    (label : Node → String) : g.CompilesRelabelled config (g.relabel rename label) := by
  have hc := Config.accepted_of_check hc
  have hi := g.index_sound
  have hi' := (g.relabel rename label).index_sound
  have ha := accepted_of_hasFatal hi h
  have himage := image_relabel (nodup_ids_of_accepted ha) hrename label ha.links
  have h' : hasFatal ((g.relabel rename label).validate config) = false :=
    himage.hasFatal_validate hi hi' hc h
  have hemitted := g.emitted_of_hasFatal hc h
  have hemitted' := (g.relabel rename label).emitted_of_hasFatal hc h'
  obtain ⟨order, horder⟩ := Index.exists_linearize hi ha.acyclic ha.unique
  obtain ⟨hindex, hperm, -⟩ := Index.linearize_spec hi horder
  obtain ⟨order', horder', -, hpruned⟩ := himage.exists_pruned hi hi' horder
  have halike : ∀ v ∈ order.pruned.vertices,
      AlikeAt (Vertex.relabel rename label) g.index (g.relabel rename label).index v := fun v hv =>
    alikeAt_relabel ha hrename (hperm.subset (List.mem_filter.1 hv).1)
  exact
    { not_fatal := hemitted'.not_fatal
      isEmitted := (isEmitted_compile hc).2 h'
      metrics_eq := by
        have hestimate : ((g.relabel rename label).compile config).metrics.estimate =
            (g.compile config).metrics.estimate := by
          rw [hemitted.estimate_eq_ofNodes horder, hemitted'.estimate_eq_ofNodes horder']
          refine Estimate.ofNodes_congr ?_
          rw [hpruned, List.map_map, List.map_map, List.map_map]
          exact List.map_congr_left fun v hv =>
            Config.nodeCost?_eq_of_unlabelled (halike v hv).unlabelled_eq
        rw [metrics_compile, g.metrics_compile, metrics, metrics, hestimate, relabel,
          List.length_map, List.length_map]
      renamed := exists_renamedBy_relabel hc h h' horder horder' hpruned halike }

/-- The age check of the gallery with ids that give the difference and the comparison the same
name, and without words in its labels. -/
theorem compilesRelabelled_ageVerification :
    let g := Exhibit.ageVerification.graph
    ({} : Config).check = .ok () ∧ hasFatal (g.validate {}) = false ∧
      ∃ rename : String → String,
        (∀ u ∈ g.nodes, ∀ v ∈ g.nodes, u.id < v.id → rename u.id < rename v.id) ∧
        nodeIdentifier (rename "age") = nodeIdentifier (rename "old-enough") ∧
        g.CompilesRelabelled {} (g.relabel rename fun _ => "") := by
  have hfatal : hasFatal (Exhibit.ageVerification.graph.validate {}) = false := by cbv
  let rename : String → String := fun id =>
    if id = "age" then "n 1" else if id = "old-enough" then "n-1" else "n " ++ id
  have hrename : ∀ u ∈ Exhibit.ageVerification.graph.nodes,
      ∀ v ∈ Exhibit.ageVerification.graph.nodes, u.id < v.id → rename u.id < rename v.id := by
    decide
  exact ⟨rfl, hfatal, rename, hrename, by decide,
    compilesRelabelled_of_hasFatal {} rfl Exhibit.ageVerification.graph hfatal rename hrename
      fun _ => ""⟩

end Graph

end CircuitGraph
