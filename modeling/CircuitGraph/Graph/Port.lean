import CircuitGraph.Graph.Basic
import CircuitGraph.Text.Layout
import CircuitGraph.Text.Word

/-!
# Ports

The kind of a node declares its input ports. Most kinds have fixed ports; a hash has the ports
`in0`, `in1` and so on, as many as its parameter `inputs` says. When that parameter does not make
sense the ports are unresolved: no port is declared, and any indexed name may be meant.

Whether a port name belongs to a node is read off the digits of the name, so `in00` is taken for the
first port of a hash although only `in0` is declared.
-/

namespace CircuitGraph

open CircuitGraph.Text

/-- The input ports of a node. -/
inductive PortSet
  /-- The given names. -/
  | fixed (names : List String)
  /-- The names `in0` up to, and without, `in` followed by the count. -/
  | indexed (count : Nat)
  /-- Indexed names of unknown number. -/
  | unresolved
deriving DecidableEq, Repr

/-- The port of a hash for the value at a position. -/
def hashPort (position : Nat) : String := s!"in{position}"

/-- The position that an indexed port name writes: digits after `in`, leading zeros allowed. -/
def indexedPosition? (port : String) : Option Nat :=
  match port.toList with
  | 'i' :: 'n' :: digits => wordOfDigits? digits
  | _ => none

namespace PortSet

/-- Whether an edge may arrive at a port of this name. -/
def contains (ports : PortSet) (port : String) : Bool :=
  match ports with
  | fixed names => names.contains port
  | indexed count => (indexedPosition? port).any fun position => position < count
  | unresolved => (indexedPosition? port).isSome

/-- The declared names, in order. -/
def names : PortSet → List String
  | fixed names => names
  | indexed count => (List.range count).map hashPort
  | unresolved => []

/-- Whether no edge can arrive. -/
def isEmpty : PortSet → Bool
  | fixed names => names.isEmpty
  | indexed count => count == 0
  | unresolved => false

end PortSet

/-- The number of values a hash takes, when its parameter `inputs` writes one from 1 to 16. -/
def hashArity? (params : Params) : Option Nat := do
  let text ← params.find? "inputs"
  let count ← readWord? (trim text)
  if 1 ≤ count ∧ count ≤ Gadget.maxHashInputs then some count else none

/-- The input ports of a gadget. -/
def Gadget.ports (gadget : Gadget) (params : Params) : PortSet :=
  match gadget with
  | .rangeCheck | .modulo => .fixed ["in"]
  | .conditional => .fixed ["cond", "then", "else"]
  | .merkleProof => .fixed ["leaf", "root"]
  | .hash =>
    match hashArity? params with
    | some count => .indexed count
    | none => .unresolved

/-- The input ports of a node. -/
def Node.ports (node : Node) : PortSet :=
  match node.kind with
  | .input .. => .fixed []
  | .operation _ => .fixed ["a", "b"]
  | .gadget gadget params => gadget.ports params
  | .output .. => .fixed ["in"]

end CircuitGraph
