import CircuitGraph.Circom.Placeholder
import CircuitGraph.Cost.Estimate
import CircuitGraph.Digest.Blake3
import CircuitGraph.Validation.Check

/-!
# Compilation

`compile` validates a graph, orders it, drops what feeds no output, emits source and estimates its
cost. A fatal diagnostic at any point gives a placeholder and the unknown estimate. Emitted source
has a digest: the BLAKE3 hash of a fixed tag, the length of the source and the source itself.
-/

namespace CircuitGraph

open CircuitGraph.Circom CircuitGraph.Digest

/-- The size of a graph and the estimate of its circuit. -/
structure Metrics where
  /-- The number of nodes. -/
  nodeCount : Nat
  /-- The number of edges. -/
  edgeCount : Nat
  /-- The estimate. -/
  estimate : Estimate
deriving DecidableEq, Repr

/-- What a compilation gives. -/
structure Output where
  /-- The source, or a placeholder. -/
  code : String
  /-- The problems of the graph. -/
  diagnostics : List Diagnostic
  /-- The size and the estimate. -/
  metrics : Metrics
deriving DecidableEq, Repr

namespace Output

/-- Whether the code is source. -/
def isEmitted (o : Output) : Bool := !isPlaceholder o.code

end Output

/-- The tag in front of what is hashed. -/
def digestTag : String := "CIRCUIT-BUILDER-SOURCE-V1"

/-- The bytes of a number of 64 bits, the lowest first. -/
def wordBytes (n : Nat) : List UInt8 := (List.range 8).map fun i => (n >>> (8 * i)).toUInt8

/-- The digest of source. -/
def sourceDigest (code : String) : List UInt8 :=
  let bytes := code.toUTF8.toList
  blake3 (digestTag.toUTF8.toList ++ wordBytes bytes.length ++ bytes)

/-- The digest of emitted source. -/
def Output.digest? (o : Output) : Option (List UInt8) :=
  if o.isEmitted then some (sourceDigest o.code) else none

namespace Graph

/-- The size of a graph with an estimate. -/
def metrics (g : Graph) (estimate : Estimate) : Metrics :=
  ⟨g.nodes.length, g.edges.length, estimate⟩

/-- The outcome for a graph that cannot be compiled. -/
def blocked (g : Graph) (ds : List Diagnostic) : Output :=
  ⟨placeholder ds, ds, g.metrics .unknown⟩

/-- The outcome for a graph that has been ordered. -/
def finish (config : Config) (g : Graph) (ds : List Diagnostic) (order : LinearOrder) : Output :=
  let order := order.pruned
  let code := emit config order ds
  let estimate := if isPlaceholder code then .unknown else Estimate.ofOrder config order ds
  ⟨code, ds, g.metrics estimate⟩

/-- Compiles a graph. -/
def compile (config : Config) (g : Graph) : Output :=
  let index := g.index
  let ds := index.validate config
  if hasFatal ds then
    g.blocked ds
  else
    match index.linearize with
    | .ok order => g.finish config ds order
    | .error error => g.blocked (ds ++ [error.diagnostic])

end Graph

end CircuitGraph
