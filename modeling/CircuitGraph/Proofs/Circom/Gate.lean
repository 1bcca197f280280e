import CircuitGraph.Circom.Gate
import CircuitGraph.Proofs.Gadget.Setting
import Mathlib.Data.List.Range

/-!
# Nodes that become gates

A node becomes a gate unless there is a reason to refuse it: its parameters cannot be used, or else
one of the ports that it declares has no value, of which the first is named (`Node.refusal?`). The
gates are made by looking at their ports one after the other, so each kind of node has its own
sequence of steps; that they all fail in the same way is `Gate.ofNode_eq_error`.
-/

namespace CircuitGraph

open CircuitGraph.Circom

namespace Node

/-- Why the parameters of a node cannot be used. -/
def paramError? (config : Config) (node : Node) : Option ParamError :=
  match node.kind with
  | .gadget gadget params =>
    match gadget.resolve config params with
    | .ok _ => none
    | .error error => some error
  | _ => none

/-- The refusal of a node at the first of some ports that is not wired. -/
def unwired? (node : Node) (wired : String → Bool) (ports : List String) : Option EmitError :=
  (ports.find? fun port => !wired port).map (.unwiredPort node.id)

/-- Why a node is refused: its parameters cannot be used, or else a declared port is not wired. -/
def refusal? (config : Config) (node : Node) (wired : String → Bool) : Option EmitError :=
  match node.paramError? config with
  | some error => some (.parameter node.id error)
  | none => node.unwired? wired node.ports.names

variable {config : Config} {node : Node} {wired : String → Bool}

/-- No node is refused where it has no ports. -/
@[simp] theorem unwired?_nil : node.unwired? wired [] = none := rfl

/-- A node is refused at the first port, or else at one of the others. -/
theorem unwired?_cons (port : String) (ports : List String) :
    node.unwired? wired (port :: ports) =
      if wired port then node.unwired? wired ports else some (.unwiredPort node.id port) := by
  unfold unwired?
  cases h : wired port with
  | true => rw [List.find?_cons_of_neg (by simp [h]), if_pos rfl]
  | false => rw [List.find?_cons_of_pos (by simp [h])]; rfl

/-- The parameters of a node can be used when those of its gadget resolve. -/
theorem paramError?_eq_none_iff : node.paramError? config = none ↔
    ∀ gadget params, node.kind = .gadget gadget params →
      ∃ setting, gadget.resolve config params = .ok setting := by
  unfold paramError?
  cases node.kind with
  | gadget gadget params =>
    cases hresolve : gadget.resolve config params with
    | ok setting => simp [hresolve]
    | error error => simp [hresolve]
  | _ => simp

/-- A node is not refused when its parameters can be used and its declared ports are wired. -/
theorem refusal?_eq_none_iff : node.refusal? config wired = none ↔
    node.paramError? config = none ∧ ∀ port ∈ node.ports.names, wired port = true := by
  unfold refusal? unwired?
  cases node.paramError? config with
  | some error => simp
  | none => simp

end Node

/-! ## Making a gate -/

namespace Circom.Gate

variable {config : Config} {node : Node} {value? : String → Option Ref} {error : EmitError}

/-- When all ports have been looked at, the gate is there. -/
theorem pure_eq_error (gate : Gate) : (pure gate : Except EmitError Gate) = .error error ↔
    node.unwired? (fun port => (value? port).isSome) [] = some error := by
  simp [pure, Except.pure]

/-- Taking the value at a port and going on with it fails at the port, or at one of those that are
looked at later. -/
theorem operand_bind_eq_error {α : Type} {f : Ref → Except EmitError α} {port : String}
    {ports : List String}
    (h : ∀ r, f r = .error error ↔
      node.unwired? (fun port => (value? port).isSome) ports = some error) :
    (operand node value? port >>= f) = .error error ↔
      node.unwired? (fun port => (value? port).isSome) (port :: ports) = some error := by
  rw [Node.unwired?_cons, operand]
  cases hvalue : value? port with
  | none => simp [bind, Except.bind]
  | some r => simpa [bind, Except.bind] using h r

/-- A hash fails at the first of its ports without a value. -/
theorem hashOperands_eq_error (count position : Nat) :
    hashOperands (operand node value?) count position = .error error ↔
      node.unwired? (fun port => (value? port).isSome)
        ((List.range' position count).map hashPort) = some error := by
  induction count generalizing position with
  | zero => simp [hashOperands, pure, Except.pure]
  | succ count ih =>
    rw [List.range'_succ, List.map_cons]
    exact operand_bind_eq_error fun r => bind_pure_eq_error.trans (ih (position + 1))

/-- The gate of a gadget fails at the first of the ports that its setting needs. -/
theorem ofSetting_eq_error (setting : Setting) :
    ofSetting (operand node value?) setting = .error error ↔
      node.unwired? (fun port => (value? port).isSome) setting.ports = some error := by
  cases setting with
  | rangeCheck min max => exact operand_bind_eq_error fun r => pure_eq_error _
  | hash inputs =>
    rw [Setting.ports, List.range_eq_range']
    exact bind_pure_eq_error.trans (hashOperands_eq_error inputs 0)
  | conditional condition =>
    exact operand_bind_eq_error fun c => operand_bind_eq_error fun t =>
      operand_bind_eq_error fun e => pure_eq_error _
  | merkleProof depth =>
    exact operand_bind_eq_error fun l => operand_bind_eq_error fun r => pure_eq_error _
  | modulo modulus => exact operand_bind_eq_error fun r => pure_eq_error _

/-- A node does not become a gate when it is refused for want of the values at its ports. -/
theorem ofNode_eq_error (hc : config.Accepted) :
    ofNode config node value? = .error error ↔
      node.refusal? config (fun port => (value? port).isSome) = some error := by
  unfold ofNode Node.refusal? Node.paramError? Node.ports
  cases hkind : node.kind with
  | input visibility label => simp [PortSet.names]
  | operation operator =>
    exact operand_bind_eq_error fun a => operand_bind_eq_error fun b => pure_eq_error _
  | gadget gadget params =>
    cases hresolve : gadget.resolve config params with
    | ok setting =>
      dsimp only
      rw [hresolve, (Gadget.names_ports_of_resolve hc hresolve).1]
      exact ofSetting_eq_error setting
    | error paramError =>
      dsimp only
      rw [hresolve]
      simp
  | output type label => exact operand_bind_eq_error fun value => pure_eq_error _

/-- A node becomes a gate when it is not refused. -/
theorem exists_ofNode_iff (hc : config.Accepted) :
    (∃ gate, ofNode config node value? = .ok gate) ↔
      node.refusal? config (fun port => (value? port).isSome) = none := by
  rw [Option.eq_none_iff_forall_ne_some]
  simp only [ne_eq, ← ofNode_eq_error hc]
  cases ofNode config node value? with
  | error e => simp
  | ok gate => simp

end Circom.Gate

end CircuitGraph
