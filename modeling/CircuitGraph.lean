import CircuitGraph.Main
import CircuitGraph.Proofs.Compile.Arity
import CircuitGraph.Proofs.Compile.Dataflow
import CircuitGraph.Proofs.Compile.Determined
import CircuitGraph.Proofs.Compile.Reorder
import CircuitGraph.Proofs.Compile.WellFormed
import CircuitGraph.Proofs.Order.Verdict
import CircuitGraph.Proofs.Graph.Path
import CircuitGraph.Proofs.Validation.Participation
import CircuitGraph.Proofs.Circom.Allocation
import CircuitGraph.Proofs.Circom.Relabel
import CircuitGraph.Proofs.Compile.Pruned
import CircuitGraph.Proofs.Compile.Relabel
import CircuitGraph.Proofs.Circom.Opening
import CircuitGraph.Proofs.Compile.Interface
import CircuitGraph.Proofs.Circom.Range
import CircuitGraph.Proofs.Order.Least
import CircuitGraph.Proofs.Graph.Encoding
import CircuitGraph.Proofs.Compile.Beside
import CircuitGraph.Proofs.Circom.Remainder
import CircuitGraph.Proofs.Circom.Membership
import CircuitGraph.Proofs.Compile.Boolean
import CircuitGraph.Proofs.Circom.Refusal
import CircuitGraph.Proofs.Cost.Policy
import CircuitGraph.Proofs.Order.Unresolved
import CircuitGraph.Proofs.Document.Ports
import CircuitGraph.Proofs.Validation.CycleReport
import CircuitGraph.Proofs.Graph.Connection
import CircuitGraph.Proofs.Document.EdgeIds
import CircuitGraph.Proofs.Circom.Comment
import CircuitGraph.Proofs.Compile.Inclusion
import CircuitGraph.Proofs.Gadget.HashArity
import CircuitGraph.Proofs.Circom.Serving
import CircuitGraph.Proofs.Graph.Marking
import CircuitGraph.Proofs.CommandLine.Compile
