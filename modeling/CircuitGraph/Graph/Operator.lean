/-!
# Operators and gadgets

An operator combines the values at its two ports `a` and `b`. A gadget is a larger building block
whose shape depends on parameters. Both are written by a fixed lower-case name.
-/

namespace CircuitGraph

/-- The type of the value at a node's output. -/
inductive ValueType
  /-- A field element. -/
  | number
  /-- A field element that is zero or one. -/
  | boolean
deriving DecidableEq, Repr

/-- An operation on two values. -/
inductive Operator
  /-- The sum. -/
  | add
  /-- The difference. -/
  | subtract
  /-- The product. -/
  | multiply
  /-- The quotient in the field. -/
  | divide
  /-- Whether the first value is greater. -/
  | gt
  /-- Whether the first value is less. -/
  | lt
  /-- Whether the values are equal. -/
  | eq
deriving DecidableEq, Repr

namespace Operator

/-- Every operator, in order of declaration. -/
def all : List Operator := [add, subtract, multiply, divide, gt, lt, eq]

/-- The name an operator is written by. -/
def name : Operator → String
  | add => "add"
  | subtract => "subtract"
  | multiply => "multiply"
  | divide => "divide"
  | gt => "gt"
  | lt => "lt"
  | eq => "eq"

/-- The operator with the given name. -/
def ofName? (name : String) : Option Operator := all.find? fun op => op.name == name

/-- Whether the result is a truth value. -/
def isComparison : Operator → Bool
  | gt | lt | eq => true
  | _ => false

/-- The type of the result. -/
def valueType (op : Operator) : ValueType := if op.isComparison then .boolean else .number

/-- An operator is found by its name. -/
theorem ofName?_name (op : Operator) : ofName? op.name = some op := by
  cases op <;> decide

end Operator

/-- A building block with parameters. -/
inductive Gadget
  /-- Whether a value lies between two bounds. -/
  | rangeCheck
  /-- The Poseidon hash of several values. -/
  | hash
  /-- One of two values, selected by comparing a third with a constant. -/
  | conditional
  /-- Whether a leaf belongs to the tree with a given root. -/
  | merkleProof
  /-- The remainder by a constant. -/
  | modulo
deriving DecidableEq, Repr

namespace Gadget

/-- Every gadget, in order of declaration. -/
def all : List Gadget := [rangeCheck, hash, conditional, merkleProof, modulo]

/-- The name a gadget is written by. -/
def name : Gadget → String
  | rangeCheck => "range-check"
  | hash => "hash"
  | conditional => "conditional"
  | merkleProof => "merkle-proof"
  | modulo => "modulo"

/-- The gadget with the given name. -/
def ofName? (name : String) : Option Gadget := all.find? fun g => g.name == name

/-- The parameters that have to be given, in the order in which they are read. -/
def requiredParams : Gadget → List String
  | rangeCheck => ["min", "max"]
  | hash => ["inputs"]
  | conditional => ["condition"]
  | merkleProof => ["depth"]
  | modulo => ["modulus"]

/-- The type of the result. -/
def valueType : Gadget → ValueType
  | rangeCheck | merkleProof => .boolean
  | hash | conditional | modulo => .number

/-- The largest number of values that one Poseidon hash takes. -/
def maxHashInputs : Nat := 16

/-- A gadget is found by its name. -/
theorem ofName?_name (g : Gadget) : ofName? g.name = some g := by
  cases g <;> decide

end Gadget

end CircuitGraph
