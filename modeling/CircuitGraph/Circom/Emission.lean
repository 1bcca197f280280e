import CircuitGraph.Circom.Fragment
import CircuitGraph.Circom.Identifier
import CircuitGraph.Circom.NameTable
import CircuitGraph.Order.Linear

/-!
# Emission

The vertices of a linear order are turned into fragments one after the other. Each finds the values
at its ports among the results of the vertices before it, claims its names from the one table of the
unit, and leaves its own result for the vertices behind it. The fragments together make the unit,
which includes every library file that one of them asks for, once and in a fixed order.
-/

namespace CircuitGraph.Circom

/-- What has been emitted so far. -/
structure Emission where
  /-- The names that are taken. -/
  names : NameTable
  /-- The results by the positions of their vertices, latest first. -/
  results : List (Nat × Ref)
  /-- The fragments in order. -/
  fragments : List Fragment

namespace Emission

/-- The state before the first vertex. -/
def initial (config : Config) : Emission := ⟨.initial config.templateName, [], []⟩

/-- The value at a port of a vertex: the result of the first wire into that port whose source has
one. -/
def value? (index : Index) (results : List (Nat × Ref)) (v : Vertex) (port : String) :
    Option Ref :=
  (index.incoming v.position).findSome? fun w =>
    if w.edge.targetPort = port then results.lookup w.source.position else none

end Emission

/-- Claims the names of a gate and builds its fragment. -/
def Gate.fragment (config : Config) (node : Node) (names : NameTable) :
    Gate → Fragment × NameTable
  | .input visibility label =>
    let (name, names) := names.allocate (labelIdentifier label) []
    (.input visibility name, names)
  | .output label value =>
    let (name, names) := names.allocate (labelIdentifier label) []
    (.output name value, names)
  | .operation operator a b =>
    let (name, names) := names.allocate (nodeIdentifier node.id) []
    (.operation config.comparatorBits ⟨name, node.describe⟩ name operator a b, names)
  | .rangeCheck min max value =>
    let (name, names) := names.allocate (nodeIdentifier node.id) rangeSuffixes
    (.rangeCheck config.comparatorBits ⟨name, node.describe⟩ name min max value, names)
  | .hash values =>
    let (name, names) := names.allocate (nodeIdentifier node.id) []
    (.hash ⟨name, node.describe⟩ name values, names)
  | .conditional condition selector chosen otherwise =>
    let (name, names) := names.allocate (nodeIdentifier node.id) conditionalSuffixes
    (.conditional ⟨name, node.describe⟩ name condition selector chosen otherwise, names)
  | .merkleProof depth leaf root =>
    let (name, names) := names.allocate (nodeIdentifier node.id) merkleSuffixes
    let (elements, names) := names.allocate "pathElements" []
    let (indices, names) := names.allocate "pathIndices" []
    (.merkleProof ⟨name, node.describe⟩ name elements indices depth leaf root, names)
  | .modulo modulus value =>
    let (name, names) := names.allocate (nodeIdentifier node.id) moduloSuffixes
    (.modulo config.comparatorBits ⟨name, node.describe⟩ name modulus value, names)

namespace Emission

/-- Emits one vertex. -/
def step (config : Config) (index : Index) (s : Emission) (v : Vertex) :
    Except EmitError Emission := do
  let gate ← Gate.ofNode config v.node (value? index s.results v)
  let (fragment, names) := gate.fragment config v.node s.names
  let results := match fragment.result with
    | some r => (v.position, r) :: s.results
    | none => s.results
  return ⟨names, results, s.fragments ++ [fragment]⟩

end Emission

/-- The library files that fragments ask for, each once, in order of inclusion. -/
def librariesOf (fragments : List Fragment) : List Library :=
  Library.all.filter fun library => fragments.any fun f => f.libraries.contains library

/-- The unit made of fragments. -/
def SourceUnit.ofFragments (config : Config) (fragments : List Fragment) : SourceUnit :=
  { version := config.circomVersion
    includes := (librariesOf fragments).map fun library => config.includePath library.file
    template := config.templateName
    inputs := fragments.flatMap Fragment.inputs
    outputs := fragments.flatMap Fragment.outputs
    blocks := fragments.flatMap Fragment.blocks
    publics := fragments.flatMap Fragment.publics }

/-- The source unit of a linear order, or why there is none. -/
def emitUnit (config : Config) (order : LinearOrder) : Except EmitError SourceUnit := do
  let s ← order.vertices.foldlM (Emission.step config order.index) (Emission.initial config)
  return .ofFragments config s.fragments

/-- The source text of a linear order, or why there is none. -/
def tryEmit (config : Config) (order : LinearOrder) : Except EmitError String := do
  return (← emitUnit config order).text

end CircuitGraph.Circom
