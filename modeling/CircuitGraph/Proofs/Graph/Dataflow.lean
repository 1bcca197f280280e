import CircuitGraph.Gadget.Setting
import CircuitGraph.Proofs.Validation.Accepted
import Mathlib.Data.List.Forall2

/-!
# The dataflow of a graph

What a circuit computes is a term over its inputs. `Graph.Traces` reads it off a graph: from a node
one follows, port by port, the edge that arrives there back to its source, until the inputs are
reached. The edges are those of the graph itself; no index is used.

On a graph without fatal diagnostics each declared port of a node has exactly one source
(`Index.Accepted.feeds_iff`), so a node traces to one term at most.
-/

namespace CircuitGraph

/-- What is computed from values, with the constants that belong to it. -/
inductive Operation
  /-- The sum. -/
  | add
  /-- The difference. -/
  | subtract
  /-- The product. -/
  | multiply
  /-- The quotient in the field. -/
  | divide
  /-- Whether the first value is greater, as numbers of the given width. -/
  | greaterThan (bits : Nat)
  /-- Whether the first value is less, as numbers of the given width. -/
  | lessThan (bits : Nat)
  /-- Whether the values are equal. -/
  | equal
  /-- Whether a value lies between two bounds, as numbers of the given width. -/
  | inRange (bits min max : Nat)
  /-- The hash of as many values. -/
  | hash (inputs : Nat)
  /-- The second value when the first one equals a constant, else the third one. -/
  | select (condition : Nat)
  /-- Whether a leaf belongs to the tree of a root. -/
  | member (depth : Nat)
  /-- The remainder by a constant, with a quotient of the given width. -/
  | remainder (bits modulus : Nat)
deriving DecidableEq, Repr

/-- A computation on inputs, which are known by their signals. -/
inductive Term
  /-- The value of an input. -/
  | input (signal : String)
  /-- An operation on the values of terms. -/
  | apply (operation : Operation) (args : List Term)

/-- What an operator computes. -/
def Operator.operation (bits : Nat) : Operator → Operation
  | add => .add
  | subtract => .subtract
  | multiply => .multiply
  | divide => .divide
  | gt => .greaterThan bits
  | lt => .lessThan bits
  | eq => .equal

/-- What a gadget with this setting computes. -/
def Setting.operation (bits : Nat) : Setting → Operation
  | rangeCheck min max => .inRange bits min max
  | hash inputs => .hash inputs
  | conditional condition => .select condition
  | merkleProof depth => .member depth
  | modulo modulus => .remainder bits modulus

/-- What a node computes from the values at its ports. -/
def Node.operation? (config : Config) (node : Node) : Option Operation :=
  match node.kind with
  | .operation operator => some (operator.operation config.comparatorBits)
  | .gadget gadget params =>
    match gadget.resolve config params with
    | .ok setting => some (setting.operation config.comparatorBits)
    | .error _ => none
  | .input .. | .output .. => none

/-- An input computes nothing. -/
theorem Node.operation?_of_isInput {config : Config} {node : Node} (h : node.isInput = true) :
    node.operation? config = none := by
  unfold Node.isInput at h
  split at h
  · rename_i hkind
    rw [operation?, hkind]
  · cases h

/-- An output has one port. -/
theorem Node.mem_ports_of_isOutput {node : Node} (h : node.isOutput = true) :
    "in" ∈ node.ports.names := by
  unfold Node.isOutput at h
  split at h
  · rename_i hkind
    rw [ports, hkind]
    exact List.mem_singleton_self _
  · cases h

namespace Graph

/-- An edge brings the value of a node to a port of another one. -/
def Feeds (g : Graph) (node : Node) (port : String) (source : Node) : Prop :=
  ∃ e ∈ g.edges, e.target = node.id ∧ e.targetPort = port ∧ source ∈ g.nodes ∧ source.id = e.source

/-- Following the edges back from a node gives a term. -/
inductive Traces (config : Config) (g : Graph) (signal : Node → String) : Node → Term → Prop
  /-- An input is read as its signal. -/
  | input {node : Node} (h : node.isInput = true) :
      Traces config g signal node (.input (signal node))
  /-- Any other node computes its operation from the nodes at its ports, in the declared order. -/
  | apply {node : Node} {operation : Operation} {sources : List Node} {args : List Term}
      (hoperation : node.operation? config = some operation)
      (hsources : List.Forall₂ (g.Feeds node) node.ports.names sources)
      (hargs : List.Forall₂ (Traces config g signal) sources args) :
      Traces config g signal node (.apply operation args)

/-- What reaches an output is the term of the node that its only port is wired to. -/
def Delivers (config : Config) (g : Graph) (signal : Node → String) (output : Node) (t : Term) :
    Prop :=
  ∃ source, g.Feeds output "in" source ∧ g.Traces config signal source t

end Graph

/-! ## One source for each port -/

/-- The owner of an id is found by it. -/
theorem Index.Sound.lookup?_id {index : Index} (hi : index.Sound) {v : Vertex}
    (hv : v ∈ index.owners) : index.lookup? v.id = some v := by
  obtain ⟨hmem, hshadowed⟩ := List.mem_filter.1 hv
  unfold Index.isShadowed at hshadowed
  split at hshadowed
  · rename_i first hfirst
    have hposition : first.position = v.position := by simpa using hshadowed
    rw [hfirst, hi.eq_of_position_eq (owner?_eq_some hfirst).1 hmem hposition]
  · cases hshadowed

/-- Elements of a list that are mapped to a value which occurs once are the same. -/
theorem eq_of_count_map_eq_one {α β : Type} [DecidableEq β] {f : α → β} {l : List α} {b : β}
    (h : (l.map f).count b = 1) {x y : α} (hx : x ∈ l) (hy : y ∈ l) (hfx : f x = b)
    (hfy : f y = b) : x = y := by
  rw [List.count, List.countP_map, List.countP_eq_length_filter] at h
  obtain ⟨z, hz⟩ := List.length_eq_one_iff.1 h
  -- both elements are the single one that the count leaves
  have hmem : ∀ w ∈ l, f w = b → w = z := by
    intro w hw hfw
    have : w ∈ l.filter ((fun x => x == b) ∘ f) := List.mem_filter.2 ⟨hw, by simpa using hfw⟩
    rw [hz] at this
    exact List.mem_singleton.1 this
  rw [hmem x hx hfx, hmem y hy hfy]

/-- A node of a graph has a vertex. -/
theorem Graph.exists_vertex (g : Graph) {node : Node} (h : node ∈ g.nodes) :
    ∃ v ∈ g.index.vertices, v.node = node := by
  obtain ⟨i, hi⟩ := List.mem_iff_getElem?.1 h
  exact ⟨⟨i, node⟩, List.mem_map.2 ⟨(node, i), List.mk_mem_zipIdx_iff_getElem?.2 hi, rfl⟩, rfl⟩

/-- The node of a vertex belongs to the graph. -/
theorem Graph.node_mem_of_mem_vertices (g : Graph) {v : Vertex} (h : v ∈ g.index.vertices) :
    v.node ∈ g.nodes := by
  obtain ⟨⟨node, i⟩, hmem, rfl⟩ := List.mem_map.1 h
  exact List.fst_mem_of_mem_zipIdx hmem

/-- The edge of a wire belongs to the graph. -/
theorem Graph.edge_mem_of_mem_wires (g : Graph) {w : Wire} (h : w ∈ g.index.wires) :
    w.edge ∈ g.edges := by
  obtain ⟨link, hlink, hw⟩ := List.mem_filterMap.1 h
  obtain ⟨⟨edge, i⟩, hmem, rfl⟩ := List.mem_map.1 hlink
  unfold Link.wire? at hw
  split at hw
  · cases hw
    exact List.fst_mem_of_mem_zipIdx hmem
  · cases hw

namespace Index.Accepted

variable {config : Config} {g : Graph} (ha : g.index.Accepted config)

include ha

/-- Nodes of the graph are known by their ids. -/
theorem eq_of_id_eq {v u : Vertex} (hv : v ∈ g.index.vertices) (hu : u ∈ g.index.vertices)
    (h : v.id = u.id) : v = u := by
  have howner : ∀ w ∈ g.index.vertices, g.index.lookup? w.id = some w := fun w hw =>
    g.index_sound.lookup?_id (List.mem_filter.2 ⟨hw, by rw [ha.unique w hw]; rfl⟩)
  -- both are the vertex that their common id is looked up to
  have hlookup := howner v hv
  rw [h, howner u hu] at hlookup
  exact (Option.some.inj hlookup).symm

/-- Every edge of the graph is a wire. -/
theorem exists_wire {e : Edge} (he : e ∈ g.edges) : ∃ w ∈ g.index.wires, w.edge = e := by
  obtain ⟨i, hi⟩ := List.mem_iff_getElem?.1 he
  let link : Link := ⟨i, e, linkEnds g.vertices e⟩
  have hlink : link ∈ g.index.links :=
    List.mem_map.2 ⟨(e, i), List.mk_mem_zipIdx_iff_getElem?.2 hi, rfl⟩
  have hfault := ha.links link hlink
  cases hends : linkEnds g.vertices e with
  | error fault => simp [Link.fault?, link, hends] at hfault
  | ok ends =>
    refine ⟨⟨i, e, ends.1, ends.2⟩, List.mem_filterMap.2 ⟨link, hlink, ?_⟩, rfl⟩
    simp [Link.wire?, link, hends]

/-- What arrives at a port of a node along the edges is what the wires of the index bring there. -/
theorem feeds_iff_exists_wire {v : Vertex} (hv : v ∈ g.index.owners) {port : String}
    {source : Node} :
    g.Feeds v.node port source ↔
      ∃ w ∈ g.index.incoming v.position, w.edge.targetPort = port ∧ w.source.node = source := by
  have hi := g.index_sound
  constructor
  -- the wire of the edge ends at the owner of the target's id, which is the vertex
  · rintro ⟨e, he, htarget, hport, hsource, hid⟩
    obtain ⟨w, hw, rfl⟩ := ha.exists_wire he
    have hlookup := hi.target_owner w hw
    rw [htarget, show v.node.id = v.id from rfl, hi.lookup?_id hv] at hlookup
    have htarget : v = w.target := Option.some.inj hlookup
    refine ⟨w, Index.mem_incoming.2 ⟨hw, by rw [htarget]⟩, hport, ?_⟩
    obtain ⟨u, hu, rfl⟩ := g.exists_vertex hsource
    obtain ⟨hmem, hsourceId⟩ := owner?_eq_some (hi.source_owner w hw)
    rw [ha.eq_of_id_eq hmem hu (hsourceId.trans hid.symm)]
  · rintro ⟨w, hw, hport, rfl⟩
    obtain ⟨hwire, hposition⟩ := Index.mem_incoming.1 hw
    have htarget : w.target = v :=
      hi.eq_of_position_eq (Index.mem_vertices_of_mem_owners (hi.target_mem_owners hwire))
        (Index.mem_vertices_of_mem_owners hv) hposition
    obtain ⟨-, htargetId⟩ := owner?_eq_some (hi.target_owner w hwire)
    obtain ⟨hmem, hsourceId⟩ := owner?_eq_some (hi.source_owner w hwire)
    refine ⟨w.edge, g.edge_mem_of_mem_wires hwire, ?_, hport, g.node_mem_of_mem_vertices hmem,
      hsourceId⟩
    rw [← htargetId, htarget]
    rfl

/-- The source at a port of a node is the source of any wire that arrives there. -/
theorem feeds_iff {v : Vertex} (hv : v ∈ g.index.owners) {w : Wire}
    (hw : w ∈ g.index.incoming v.position) (hport : w.edge.targetPort ∈ v.node.ports.names)
    {source : Node} :
    g.Feeds v.node w.edge.targetPort source ↔ source = w.source.node := by
  rw [ha.feeds_iff_exists_wire hv]
  constructor
  · rintro ⟨w', hw', hport', rfl⟩
    -- two wires into the port would be counted twice
    have hone := ha.count_targetPort hv hport
    rw [eq_of_count_map_eq_one hone hw' hw hport' rfl]
  · rintro rfl
    exact ⟨w, hw, rfl, rfl⟩

end Index.Accepted

end CircuitGraph
