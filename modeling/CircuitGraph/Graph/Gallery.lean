import CircuitGraph.Graph.Basic

/-!
# The gallery

Ready-made graphs from which an editor session can start.
-/

namespace CircuitGraph

/-- A graph of the gallery with what is shown beside it. -/
structure Exhibit where
  /-- The name by which it is asked for. -/
  name : String
  /-- The title. -/
  title : String
  /-- What the circuit proves. -/
  description : String
  /-- The graph. -/
  graph : Graph

namespace Exhibit

/-- A private input. -/
def secret (id label : String) : Node := ⟨id, .input .secret label⟩

/-- A public input. -/
def exposed (id label : String) : Node := ⟨id, .input .exposed label⟩

/-- An operation. -/
def operation (id : String) (operator : Operator) : Node := ⟨id, .operation operator⟩

/-- A gadget. -/
def gadget (id : String) (gadget : Gadget) (params : List (String × String)) : Node :=
  ⟨id, .gadget gadget (Params.ofList params)⟩

/-- An output. -/
def output (id : String) (type : ValueType) (label : String) : Node := ⟨id, .output type label⟩

/-- A difference of years against a minimum. -/
def ageVerification : Exhibit where
  name := "age-verification"
  title := "Age Verification"
  description :=
    "Prove you are above a public minimum age without revealing your birth year"
  graph :=
    { nodes :=
        [secret "birth-year" "Birth Year", exposed "current-year" "Current Year",
         exposed "minimum-age" "Minimum Age", operation "age" .subtract,
         operation "old-enough" .gt, output "is-adult" .boolean "Is Adult"]
      edges :=
        [Graph.wire "current-year" "age" "a", Graph.wire "birth-year" "age" "b",
         Graph.wire "age" "old-enough" "a", Graph.wire "minimum-age" "old-enough" "b",
         Graph.wire "old-enough" "is-adult" "in"] }

/-- A balance against a minimum. -/
def balanceProof : Exhibit where
  name := "balance-proof"
  title := "Balance Proof"
  description := "Prove sufficient balance without revealing the exact amount"
  graph :=
    { nodes :=
        [secret "balance" "Your Balance", exposed "minimum" "Required Minimum",
         operation "covers" .gt, output "sufficient" .boolean "Has Sufficient Funds"]
      edges :=
        [Graph.wire "balance" "covers" "a", Graph.wire "minimum" "covers" "b",
         Graph.wire "covers" "sufficient" "in"] }

/-- A value between two bounds. -/
def rangeVerification : Exhibit where
  name := "range-verification"
  title := "Range Verification"
  description := "Prove a private value lies within 18..=65"
  graph :=
    { nodes :=
        [secret "value" "Private Value",
         gadget "bounds" .rangeCheck [("min", "18"), ("max", "65")],
         output "in-range" .boolean "In Range"]
      edges := [Graph.wire "value" "bounds" "in", Graph.wire "bounds" "in-range" "in"] }

/-- The hash of a secret and a salt. -/
def hashCommitment : Exhibit where
  name := "hash-commitment"
  title := "Hash Commitment"
  description := "Commit to a secret with a salted Poseidon hash"
  graph :=
    { nodes :=
        [secret "secret" "Secret Value", secret "salt" "Salt",
         gadget "digest" .hash [("inputs", "2")], output "commitment" .number "Commitment"]
      edges :=
        [Graph.wire "secret" "digest" "in0", Graph.wire "salt" "digest" "in1",
         Graph.wire "digest" "commitment" "in"] }

/-- A leaf of a tree with a public root. -/
def merkleMembership : Exhibit where
  name := "merkle-membership"
  title := "Merkle Tree Membership"
  description := "Prove membership in a depth-20 tree without revealing which leaf"
  graph :=
    { nodes :=
        [secret "member" "Member ID", exposed "root" "Merkle Root",
         gadget "inclusion" .merkleProof [("depth", "20")],
         output "is-member" .boolean "Is Member"]
      edges :=
        [Graph.wire "member" "inclusion" "leaf", Graph.wire "root" "inclusion" "root",
         Graph.wire "inclusion" "is-member" "in"] }

/-- A salted hash against a public value. -/
def hashPreimage : Exhibit where
  name := "hash-preimage"
  title := "Hash Preimage Proof"
  description := "Prove knowledge of X where hash(X, salt) equals a public value"
  graph :=
    { nodes :=
        [secret "preimage" "Preimage (Secret)", secret "salt" "Salt",
         exposed "expected" "Expected Hash", gadget "digest" .hash [("inputs", "2")],
         operation "matches" .eq, output "is-valid" .boolean "Is Valid"]
      edges :=
        [Graph.wire "preimage" "digest" "in0", Graph.wire "salt" "digest" "in1",
         Graph.wire "digest" "matches" "a", Graph.wire "expected" "matches" "b",
         Graph.wire "matches" "is-valid" "in"] }

/-- A span of time against a minimum, with a commitment to its start. -/
def patienceProof : Exhibit where
  name := "patience-proof"
  title := "Patience Privacy Proof"
  description := "Prove a waiting period elapsed without revealing the exact timing"
  graph :=
    { nodes :=
        [secret "start" "Start Time", secret "end" "End Time", secret "secret" "Secret",
         exposed "min-wait" "Min Wait Time", operation "duration" .subtract,
         operation "waited" .gt, gadget "digest" .hash [("inputs", "2")],
         output "is-valid" .boolean "Is Valid", output "commitment" .number "Commitment"]
      edges :=
        [Graph.wire "end" "duration" "a", Graph.wire "start" "duration" "b",
         Graph.wire "duration" "waited" "a", Graph.wire "min-wait" "waited" "b",
         Graph.wire "waited" "is-valid" "in", Graph.wire "secret" "digest" "in0",
         Graph.wire "start" "digest" "in1", Graph.wire "digest" "commitment" "in"] }

end Exhibit

/-- The gallery, in the order in which it is listed. -/
def gallery : List Exhibit :=
  [Exhibit.ageVerification, Exhibit.balanceProof, Exhibit.rangeVerification,
   Exhibit.hashCommitment, Exhibit.merkleMembership, Exhibit.hashPreimage,
   Exhibit.patienceProof]

/-- The exhibit with the given name. -/
def exhibit? (name : String) : Option Exhibit := gallery.find? fun e => e.name == name

end CircuitGraph
