import CircuitGraph.Compile
import CircuitGraph.Json.Printer

/-!
# Reports

Diagnostics, estimates and outcomes as JSON, with their members in a fixed order. A report of a
compilation has the digest of the source when there is source.
-/

namespace CircuitGraph

open CircuitGraph.Json

/-- The word for a severity. -/
def Severity.name : Severity → String
  | fatal => "fatal"
  | advisory => "advisory"

/-- The diagnostic as an object. -/
def Diagnostic.toJson (d : Diagnostic) : Value :=
  .ofMembers
    ([("errorKind", .ofString d.problem.name), ("severity", .ofString d.severity.name)]
      ++ Value.optionalMember "nodeId" d.nodeId ++ Value.optionalMember "edgeId" d.edgeId
      ++ [("message", .ofString d.message)])

/-- The members of an estimate. -/
def Estimate.members (e : Estimate) : List (String × Value) :=
  [("constraints", .ofNat e.constraints.toNat), ("estimatedTime", .ofString e.time)]

/-- The size and the estimate as an object. -/
def Metrics.toJson (m : Metrics) : Value :=
  .ofMembers
    (("nodeCount", .ofNat m.nodeCount) :: ("edgeCount", .ofNat m.edgeCount) :: m.estimate.members)

namespace Output

/-- The members of an outcome. -/
def members (o : Output) : List (String × Value) :=
  [("code", .ofString o.code),
   ("diagnostics", .array (o.diagnostics.map Diagnostic.toJson)),
   ("metrics", o.metrics.toJson)]

/-- The digest in hexadecimal digits. -/
def digestText? (o : Output) : Option String := o.digest?.map Digest.hex

/-- The report of a compilation. -/
def report (o : Output) : Value :=
  .ofMembers (o.members ++ Value.optionalMember "sourceDigest" o.digestText?)

end Output

end CircuitGraph
