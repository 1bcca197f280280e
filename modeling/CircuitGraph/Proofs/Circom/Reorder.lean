import CircuitGraph.Proofs.Circom.Emission
import CircuitGraph.Proofs.Graph.Dataflow
import CircuitGraph.Proofs.Graph.Reorder

/-!
# Emission does not depend on positions

Emission reads three things of a vertex: its node, its position as the key of its result, and the
wires that arrive at it. So when the vertices of a list are moved and the same edges arrive at them
from the moved sources, they are emitted as the same fragments, and the results are found under the
moved positions (`Emits.move`). Wires may arrive in another order, in which `Emission.value?` would
find the first one; this does not matter where each declared port has exactly one wire.
-/

namespace CircuitGraph.Circom

/-! ## Gates -/

namespace Gate

variable {config : Config} {node : Node}

/-- The operands of a hash depend only on what stands at its ports. -/
theorem hashOperands_congr {operand operand' : String → Except EmitError Ref}
    (count position : Nat)
    (h : ∀ i, position ≤ i → i < position + count → operand (hashPort i) = operand' (hashPort i)) :
    hashOperands operand count position = hashOperands operand' count position := by
  induction count generalizing position with
  | zero => rfl
  | succ count ih =>
    rw [hashOperands, hashOperands, h position (by omega) (by omega),
      ih (position + 1) fun i hle hlt => h i (by omega) (by omega)]

/-- The gate of a gadget depends only on what stands at its ports. -/
theorem ofSetting_congr {operand operand' : String → Except EmitError Ref} {setting : Setting}
    (h : ∀ port ∈ setting.ports, operand port = operand' port) :
    ofSetting operand setting = ofSetting operand' setting := by
  cases setting with
  | hash inputs =>
    rw [ofSetting, ofSetting, hashOperands_congr inputs 0 fun i _ hlt =>
      h _ (List.mem_map_of_mem (List.mem_range.2 (by omega)))]
  | _ => simp only [Setting.ports, List.forall_mem_cons] at h; simp only [ofSetting, h]

/-- The gate of a node depends only on the values at its declared ports. -/
theorem ofNode_congr (hc : config.Accepted) {value? value?' : String → Option Ref}
    (h : ∀ port ∈ node.ports.names, value? port = value?' port) :
    ofNode config node value? = ofNode config node value?' := by
  have hoperand : ∀ port ∈ node.ports.names, operand node value? port = operand node value?' port :=
    fun port hport => by rw [operand, operand, h port hport]
  unfold Node.ports at hoperand
  unfold ofNode
  cases hkind : node.kind with
  | input visibility label => rfl
  | operation operator =>
    rw [hkind] at hoperand
    simp only [hoperand "a" (by simp [PortSet.names]), hoperand "b" (by simp [PortSet.names])]
  | gadget gadget params =>
    rw [hkind] at hoperand
    dsimp only
    cases hresolve : gadget.resolve config params with
    | ok setting =>
      dsimp only at hoperand
      rw [(Gadget.names_ports_of_resolve hc hresolve).1] at hoperand
      exact ofSetting_congr hoperand
    | error e => rfl
  | output type label =>
    rw [hkind] at hoperand
    simp only [hoperand "in" (by simp [PortSet.names])]

end Gate

/-! ## Results -/

namespace Emission

variable {index index' : Index} {σ : Equiv.Perm Nat} {results : List (Nat × Ref)} {v : Vertex}

/-- The value at a port with one wire is the result of the source of that wire. -/
theorem value?_eq_lookup {w : Wire} (hw : w ∈ index.incoming v.position)
    (hone : ((index.incoming v.position).map fun w => w.edge.targetPort).count
      w.edge.targetPort = 1) :
    value? index results v w.edge.targetPort = results.lookup w.source.position := by
  have hvalue : ∀ r, value? index results v w.edge.targetPort = some r →
      results.lookup w.source.position = some r := by
    intro r hr
    obtain ⟨u, hu, hport, hlookup⟩ := exists_of_value? hr
    rwa [eq_of_count_map_eq_one hone hu hw hport rfl] at hlookup
  refine Option.ext fun r => ⟨hvalue r, fun hr => ?_⟩
  obtain ⟨r', hr'⟩ := Option.isSome_iff_exists.1
    (isSome_value? hw (Option.isSome_iff_exists.2 ⟨r, hr⟩))
  rw [hr', ← hvalue r' hr', hr]

/-- The state in which every result is found under the moved position. -/
def move (σ : Equiv.Perm Nat) (s : Emission) : Emission :=
  { s with results := s.results.map fun e => (σ e.1, e.2) }

/-- A result is found under its moved position. -/
theorem lookup_move (results : List (Nat × Ref)) (p : Nat) :
    (results.map fun e => (σ e.1, e.2)).lookup (σ p) = results.lookup p := by
  induction results with
  | nil => rfl
  | cons e results ih =>
    obtain ⟨q, r⟩ := e
    simp only [List.map_cons, List.lookup_cons, beq_eq_decide, EmbeddingLike.apply_eq_iff_eq, ih]

/-- The value at a port of a moved vertex is the same when the same edges arrive, from the moved
sources, and only one of them at the port. -/
theorem value?_move
    (hincoming : ((index.incoming v.position).map fun w => (w.edge, w.source.move σ)).Perm
      ((index'.incoming (σ v.position)).map fun w => (w.edge, w.source))) {port : String}
    (hone : ((index.incoming v.position).map fun w => w.edge.targetPort).count port = 1) :
    value? index' (results.map fun e => (σ e.1, e.2)) (v.move σ) port =
      value? index results v port := by
  obtain ⟨w, hw, rfl⟩ := List.mem_map.1 (List.count_pos_iff.1 (hone ▸ Nat.one_pos))
  obtain ⟨w', hw', heq⟩ := List.mem_map.1 (hincoming.mem_iff.1 (List.mem_map_of_mem hw))
  obtain ⟨hedge, hsource⟩ := Prod.mk.inj heq
  have hports := hincoming.map fun k => k.1.targetPort
  rw [List.map_map, List.map_map] at hports
  have hone' : ((index'.incoming (v.move σ).position).map fun w => w.edge.targetPort).count
      w'.edge.targetPort = 1 := by
    rw [hedge]
    exact (hports.count_eq _).symm.trans hone
  rw [value?_eq_lookup hw hone, ← hedge, value?_eq_lookup hw' hone', hsource,
    Vertex.position_move, lookup_move]

/-- Emitting a moved vertex leads to the moved state. -/
theorem move_after (config : Config) (s : Emission) (gate : Gate) :
    (s.after config v gate).move σ = (s.move σ).after config (v.move σ) gate := by
  unfold move after
  dsimp only [Vertex.node_move]
  cases (gate.fragment config v.node s.names).1.result <;> rfl

end Emission

/-! ## Runs -/

variable {config : Config} {index index' : Index} {σ : Equiv.Perm Nat}

/-- Moved vertices are emitted like the vertices themselves when the same edges arrive at them, from
the moved sources, and the vertices are those of an accepted graph. -/
theorem Emits.move (hc : config.Accepted) (ha : index.Accepted config) {vs : List Vertex}
    {s : Emission} (hs : Emits config index vs s) (howners : ∀ v ∈ vs, v ∈ index.owners)
    (hincoming : ∀ v ∈ vs,
      ((index.incoming v.position).map fun w => (w.edge, w.source.move σ)).Perm
        ((index'.incoming (σ v.position)).map fun w => (w.edge, w.source))) :
    Emits config index' (vs.map (Vertex.move σ)) (s.move σ) := by
  induction hs with
  | initial => exact .initial
  | @step vs s v gate hs hgate ih =>
    have hinit := ih (fun u hu => howners u (List.mem_append_left _ hu))
      fun u hu => hincoming u (List.mem_append_left _ hu)
    have hv : v ∈ vs ++ [v] := List.mem_append_right _ (List.mem_singleton_self v)
    -- the gate takes its values from declared ports, each of which has one wire
    have hvalue : ∀ port ∈ v.node.ports.names,
        Emission.value? index' (s.move σ).results (v.move σ) port =
          Emission.value? index s.results v port := by
      intro port hport
      exact Emission.value?_move (hincoming v hv) (ha.count_targetPort (howners v hv) hport)
    have hgate' : Gate.ofNode config (v.move σ).node
        (Emission.value? index' (s.move σ).results (v.move σ)) = .ok gate :=
      (Gate.ofNode_congr hc hvalue).trans hgate
    rw [List.map_append, Emission.move_after]
    exact hinit.step hgate'

end CircuitGraph.Circom
