import CircuitGraph.Circom.Expr
import CircuitGraph.Gadget.Setting
import CircuitGraph.Graph.Index

/-!
# Gates

A gate is a node that is ready to be emitted: its parameters are read, and at each of its ports
stands the reference that carries the value wired to it. A gadget's parameters are read before its
ports are looked at, and the ports are looked at in the order of their declaration.
-/

namespace CircuitGraph.Circom

/-- Why a node cannot be emitted. -/
inductive EmitError
  /-- A port has no value. -/
  | unwiredPort (node port : String)
  /-- The parameters of a gadget cannot be used. -/
  | parameter (node : String) (error : ParamError)
deriving DecidableEq, Repr

/-- The text of the error. -/
def EmitError.message : EmitError → String
  | unwiredPort node port => s!"port `{port}` of node `{node}` has no resolved source"
  | parameter node error =>
    let reason := error.message
    s!"node `{node}`: {reason}"

/-- A node with its parameters read and its operands resolved. -/
inductive Gate
  /-- An input. -/
  | input (visibility : Visibility) (label : String)
  /-- An output. -/
  | output (label : String) (value : Ref)
  /-- An operation. -/
  | operation (operator : Operator) (a b : Ref)
  /-- A check that a value lies between two bounds. -/
  | rangeCheck (min max : Nat) (value : Ref)
  /-- A hash. -/
  | hash (values : List Ref)
  /-- A choice: the first value when the selector equals the constant, else the second. -/
  | conditional (condition : Nat) (selector chosen otherwise : Ref)
  /-- A check that a leaf belongs to a tree. -/
  | merkleProof (depth : Nat) (leaf root : Ref)
  /-- A remainder. -/
  | modulo (modulus : Nat) (value : Ref)
deriving DecidableEq, Repr

namespace Gate

/-- The value at a port of a node. -/
def operand (node : Node) (value? : String → Option Ref) (port : String) : Except EmitError Ref :=
  match value? port with
  | some r => .ok r
  | none => .error (.unwiredPort node.id port)

/-- The values at as many ports of a hash, from the one at a position on. -/
def hashOperands (operand : String → Except EmitError Ref) :
    (count position : Nat) → Except EmitError (List Ref)
  | 0, _ => return []
  | count + 1, position =>
    return (← operand (hashPort position)) :: (← hashOperands operand count (position + 1))

/-- The gate of a gadget whose parameters are read. -/
def ofSetting (operand : String → Except EmitError Ref) : Setting → Except EmitError Gate
  | .rangeCheck min max => return rangeCheck min max (← operand "in")
  | .hash inputs => return hash (← hashOperands operand inputs 0)
  | .conditional condition =>
    return conditional condition (← operand "cond") (← operand "then") (← operand "else")
  | .merkleProof depth => return merkleProof depth (← operand "leaf") (← operand "root")
  | .modulo modulus => return modulo modulus (← operand "in")

/-- The gate of a node, given the values at its ports. -/
def ofNode (config : Config) (node : Node) (value? : String → Option Ref) :
    Except EmitError Gate :=
  let operand := operand node value?
  match node.kind with
  | .input visibility label => .ok (input visibility label)
  | .operation operator => return operation operator (← operand "a") (← operand "b")
  | .gadget gadget params =>
    match gadget.resolve config params with
    | .ok setting => ofSetting operand setting
    | .error error => .error (.parameter node.id error)
  | .output _ label => return output label (← operand "in")

end Gate

end CircuitGraph.Circom
