/-!
# Diagnostics

A malformed graph is the normal state of an editor session, so problems are collected as values.
Each kind of problem has its usual severity; a fatal diagnostic blocks emission and estimation.
-/

namespace CircuitGraph

/-- Whether a problem blocks compilation. -/
inductive Severity
  /-- The problem blocks compilation. -/
  | fatal
  /-- The problem is only reported. -/
  | advisory
deriving DecidableEq, Repr

/-- A kind of problem. -/
inductive Problem
  /-- Two nodes share an id. -/
  | duplicateId
  /-- An edge is not well formed. -/
  | danglingEdge
  /-- Wires form a cycle. -/
  | cycleDetected
  /-- A node takes no part in the circuit. -/
  | orphanNode
  /-- A port has no edge, or several. -/
  | arityMismatch
  /-- The parameters of a gadget cannot be used. -/
  | missingParameter
  /-- No input leads to an output. -/
  | noOutputReachable
  /-- A number is wired to an output that announces a truth value. -/
  | typeMismatch
deriving DecidableEq, Repr

namespace Problem

/-- Every kind of problem. -/
def all : List Problem :=
  [duplicateId, danglingEdge, cycleDetected, orphanNode, arityMismatch, missingParameter,
   noOutputReachable, typeMismatch]

/-- The name of a kind. -/
def name : Problem → String
  | duplicateId => "DuplicateId"
  | danglingEdge => "DanglingEdge"
  | cycleDetected => "CycleDetected"
  | orphanNode => "OrphanNode"
  | arityMismatch => "ArityMismatch"
  | missingParameter => "MissingParameter"
  | noOutputReachable => "NoOutputReachable"
  | typeMismatch => "TypeMismatch"

/-- The severity that a kind usually has. -/
def severity : Problem → Severity
  | orphanNode | typeMismatch => .advisory
  | _ => .fatal

end Problem

/-- A problem with the node or the edge where it was found. -/
structure Diagnostic where
  /-- The kind of problem. -/
  problem : Problem
  /-- Whether it blocks compilation. -/
  severity : Severity
  /-- The id of the node concerned. -/
  nodeId : Option String
  /-- The id of the edge concerned. -/
  edgeId : Option String
  /-- What is wrong. -/
  message : String
deriving DecidableEq, Repr

namespace Diagnostic

/-- A problem of a node. -/
def atNode (problem : Problem) (id message : String) : Diagnostic :=
  ⟨problem, problem.severity, some id, none, message⟩

/-- A problem of an edge. -/
def atEdge (problem : Problem) (id message : String) : Diagnostic :=
  ⟨problem, problem.severity, none, some id, message⟩

/-- A problem of the graph as a whole. -/
def ofGraph (problem : Problem) (message : String) : Diagnostic :=
  ⟨problem, problem.severity, none, none, message⟩

/-- Whether the problem blocks compilation. -/
def isFatal (d : Diagnostic) : Bool := d.severity == .fatal

/-- The diagnostic on one line, unless a line break stands in one of its texts. -/
def text (d : Diagnostic) : String :=
  let level := match d.severity with
    | .fatal => "error"
    | .advisory => "warning"
  let node := match d.nodeId with
    | some id => s!" node `{id}`"
    | none => ""
  let edge := match d.edgeId with
    | some id => s!" edge `{id}`"
    | none => ""
  s!"{level}[{d.problem.name}]{node}{edge}: {d.message}"

end Diagnostic

/-- Whether some diagnostic blocks compilation. -/
def hasFatal (ds : List Diagnostic) : Bool := ds.any Diagnostic.isFatal

/-- The number of diagnostics that block compilation. -/
def fatalCount (ds : List Diagnostic) : Nat := ds.countP Diagnostic.isFatal

end CircuitGraph
