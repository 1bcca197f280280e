import CircuitGraph.Circom.Gate
import CircuitGraph.Circom.SourceUnit

/-!
# Fragments

The part of a source unit that one gate contributes: the library files it asks for, the inputs and
outputs it declares, the commands that constrain its result, and the reference that carries the
result. The names are given; nothing in a fragment depends on how they are spelled.
-/

namespace CircuitGraph.Circom

/-- What one gate contributes to a source unit. -/
structure Fragment where
  /-- The library files to be included. -/
  libraries : List Library := []
  /-- The declared inputs. -/
  inputs : List InputDecl := []
  /-- The names of the declared outputs. -/
  outputs : List String := []
  /-- The names of the declared inputs that are public. -/
  publics : List String := []
  /-- The commands. -/
  blocks : List Block := []
  /-- The reference that carries the result, if the gate has one. -/
  result : Option Ref := none
deriving DecidableEq, Repr

/-- The signal of the given name. -/
def signalRef (name : String) : Ref := ⟨name, []⟩

/-- The output of the component of the given name. -/
def outputOf (name : String) : Ref := (signalRef name).field "out"

/-- Declares a component with two inputs and wires them. -/
def compare (name : String) (template : Template) (left right : Expr) : List Statement :=
  let inputs := (signalRef name).field "in"
  [.component name template,
   .constrain (inputs.atPlace 0) left,
   .constrain (inputs.atPlace 1) right]

/-- The names derived from that of a range check. -/
def rangeSuffixes : List String := ["_ge", "_le"]

/-- The names derived from that of a choice. -/
def conditionalSuffixes : List String := ["_sel"]

/-- The names derived from that of a Merkle proof. -/
def merkleSuffixes : List String := ["_level", "_mux", "_hash"]

/-- The names derived from that of a remainder. -/
def moduloSuffixes : List String := ["_q", "_qbits", "_lt"]

namespace Fragment

/-- An input is declared, and listed when it is public. -/
def input (visibility : Visibility) (name : String) : Fragment where
  inputs := [⟨name, none⟩]
  publics := match visibility with
    | .secret => []
    | .exposed => [name]
  result := some (signalRef name)

/-- An output is declared and constrained to its value. -/
def output (name : String) (value : Ref) : Fragment where
  outputs := [name]
  blocks := [.ofStatements none [.constrain (signalRef name) value]]

/-- A signal that is constrained to an expression over two values. -/
def arithmetic (name : String) (op : BinaryOp) (a b : Ref) : List Statement :=
  [.signal name, .constrain (signalRef name) (.binary op a b)]

/-- The statements of an operation. A quotient is assigned freely and then constrained by its
product with the divisor. -/
def operationStatements (bits : Nat) (name : String) (a b : Ref) : Operator → List Statement
  | .add => arithmetic name .add a b
  | .subtract => arithmetic name .sub a b
  | .multiply => arithmetic name .mul a b
  | .divide =>
    [.signal name,
     .assign (signalRef name) (.binary .div a b),
     .equate (.binary .mul (signalRef name) b) a]
  | .gt => compare name (.greaterThan bits) a b
  | .lt => compare name (.lessThan bits) a b
  | .eq => compare name .isEqual a b

/-- An operation. The result of a comparison is the output of its component. -/
def operation (bits : Nat) (heading : Heading) (name : String) (operator : Operator) (a b : Ref) :
    Fragment where
  libraries := if operator.isComparison then [.comparators] else []
  blocks := [.ofStatements heading (operationStatements bits name a b operator)]
  result := some (if operator.isComparison then outputOf name else signalRef name)

/-- The statements of a range check: the conjunction of two comparisons with the bounds. -/
def rangeStatements (bits : Nat) (name : String) (min max : Nat) (value : Ref) : List Statement :=
  let above := name ++ "_ge"
  let below := name ++ "_le"
  compare above (.greaterEqThan bits) value (.const min)
    ++ compare below (.lessEqThan bits) value (.const max)
    ++ [.signal name,
        .constrain (signalRef name) (.binary .mul (outputOf above) (outputOf below))]

/-- A range check. -/
def rangeCheck (bits : Nat) (heading : Heading) (name : String) (min max : Nat) (value : Ref) :
    Fragment where
  libraries := [.comparators]
  blocks := [.ofStatements heading (rangeStatements bits name min max value)]
  result := some (signalRef name)

/-- The statements of a hash: one component with a value at each input. -/
def hashStatements (name : String) (values : List Ref) : List Statement :=
  let inputs := (signalRef name).field "inputs"
  .component name (.poseidon values.length)
    :: values.zipIdx.map fun (value, i) => .constrain (inputs.atPlace i) value

/-- A hash. -/
def hash (heading : Heading) (name : String) (values : List Ref) : Fragment where
  libraries := [.poseidon]
  blocks := [.ofStatements heading (hashStatements name values)]
  result := some (outputOf name)

/-- The statements of a choice: the second value, and the difference to the first one where the
selector matches. -/
def conditionalStatements (name : String) (condition : Nat) (selector chosen otherwise : Ref) :
    List Statement :=
  let same := name ++ "_sel"
  let difference : Expr := .binary .sub chosen otherwise
  compare same .isEqual selector (.const condition)
    ++ [.signal name,
        .constrain (signalRef name)
          (.binary .add (.binary .mul (outputOf same) difference) otherwise)]

/-- A choice. -/
def conditional (heading : Heading) (name : String) (condition : Nat)
    (selector chosen otherwise : Ref) : Fragment where
  libraries := [.comparators]
  blocks := [.ofStatements heading (conditionalStatements name condition selector chosen otherwise)]
  result := some (signalRef name)

/-- The statements for one level of a Merkle proof. The path index selects on which side the path
element is hashed. -/
def merkleLevel (level mux hash elements indices : Ref) : List Statement :=
  let index : Expr := indices.atCounter 0
  let element : Expr := elements.atCounter 0
  let below : Expr := level.atCounter 0
  let choice := mux.atCounter 0
  let node := hash.atCounter 0
  [.equate (.binary .mul index (.binary .sub (.const 1) index)) (.const 0),
   .instantiate choice (.multiMux1 2),
   .constrain (((choice.field "c").atPlace 0).atPlace 0) below,
   .constrain (((choice.field "c").atPlace 0).atPlace 1) element,
   .constrain (((choice.field "c").atPlace 1).atPlace 0) element,
   .constrain (((choice.field "c").atPlace 1).atPlace 1) below,
   .constrain (choice.field "s") index,
   .instantiate node (.poseidon 2),
   .constrain ((node.field "inputs").atPlace 0) ((choice.field "out").atPlace 0),
   .constrain ((node.field "inputs").atPlace 1) ((choice.field "out").atPlace 1),
   .constrain (level.atCounter 1) (node.field "out")]

/-- The commands of a Merkle proof: the hashes from the leaf up to the root along a path, and the
comparison of the last hash with the root. -/
def merkleCommands (name elements indices : String) (depth : Nat) (leaf root : Ref) :
    List Command :=
  let level := name ++ "_level"
  let mux := name ++ "_mux"
  let hash := name ++ "_hash"
  let start : List Statement :=
    [.signalArray level (depth + 1), .componentArray mux depth, .componentArray hash depth,
     .constrain ((signalRef level).atPlace 0) leaf]
  let body := merkleLevel (signalRef level) (signalRef mux) (signalRef hash) (signalRef elements)
    (signalRef indices)
  start.map .single
    ++ .loop depth body
    :: (compare name .isEqual ((signalRef level).atPlace depth) root).map .single

/-- A Merkle proof. Its path is supplied as two private arrays. -/
def merkleProof (heading : Heading) (name elements indices : String) (depth : Nat)
    (leaf root : Ref) : Fragment where
  libraries := [.comparators, .poseidon, .mux1]
  inputs := [⟨elements, some depth⟩, ⟨indices, some depth⟩]
  blocks := [⟨some heading, merkleCommands name elements indices depth leaf root⟩]
  result := some (outputOf name)

/-- The statements of a remainder: quotient and remainder are assigned freely and constrained by
their defining equation; the quotient is constrained to the width of the comparators and the
remainder to be less than the divisor. -/
def moduloStatements (bits : Nat) (name : String) (modulus : Nat) (value : Ref) :
    List Statement :=
  let quotient := name ++ "_q"
  let quotientBits := name ++ "_qbits"
  let below := name ++ "_lt"
  [.signal quotient,
   .signal name,
   .assign (signalRef quotient) (.binary .quotient value (.const modulus)),
   .assign (signalRef name) (.binary .remainder value (.const modulus)),
   .equate value
     (.binary .add (.binary .mul (signalRef quotient) (.const modulus)) (signalRef name)),
   .component quotientBits (.num2Bits bits),
   .constrain ((signalRef quotientBits).field "in") (signalRef quotient)]
    ++ compare below (.lessThan bits) (signalRef name) (.const modulus)
    ++ [.equate (outputOf below) (.const 1)]

/-- A remainder. -/
def modulo (bits : Nat) (heading : Heading) (name : String) (modulus : Nat) (value : Ref) :
    Fragment where
  libraries := [.comparators]
  blocks := [.ofStatements heading (moduloStatements bits name modulus value)]
  result := some (signalRef name)

end Fragment

end CircuitGraph.Circom
