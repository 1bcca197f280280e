import CircuitGraph.Proofs.Circom.Scope

/-!
# Which names are asked for

A node asks for its names without looking at the graph: `Node.requests` lists the bases and the
suffixes in the order in which they are asked for. So the names of a unit are what the name table
gives out when it serves the requests of the nodes one after the other (`NameTable.serve`), and the
table of an emission is the one that is left behind (`Emits.names_eq`).
-/

namespace CircuitGraph.Circom

/-- A name that is asked for. -/
structure Request where
  /-- The name, when it is free. -/
  base : String
  /-- The suffixes of the names to be derived from it. -/
  suffixes : List String
deriving DecidableEq, Repr

/-- A name that has been given out. -/
structure Allocation where
  /-- The name. -/
  name : String
  /-- The suffixes of the names derived from it. -/
  suffixes : List String
deriving DecidableEq, Repr

namespace Allocation

/-- The name and the names derived from it. -/
def names (a : Allocation) : List String := family a.suffixes a.name

end Allocation

namespace NameTable

/-- Gives out names as they are asked for, with the table that is left behind. -/
def serve (t : NameTable) : List Request → List Allocation × NameTable
  | [] => ([], t)
  | request :: requests =>
    let (name, t) := t.allocate request.base request.suffixes
    let (allocations, t) := t.serve requests
    (⟨name, request.suffixes⟩ :: allocations, t)

/-- The first request is served first. -/
theorem serve_cons (t : NameTable) (request : Request) (requests : List Request) :
    t.serve (request :: requests) =
      let first := t.allocate request.base request.suffixes
      (⟨first.1, request.suffixes⟩ :: (first.2.serve requests).1, (first.2.serve requests).2) := rfl

/-- Requests and further requests are served one after the other. -/
theorem serve_append (t : NameTable) (a b : List Request) :
    t.serve (a ++ b) =
      ((t.serve a).1 ++ ((t.serve a).2.serve b).1, ((t.serve a).2.serve b).2) := by
  induction a generalizing t with
  | nil => rfl
  | cons request a ih =>
    simp only [List.cons_append, serve_cons, ih]

/-- What is given out has the suffixes that were asked for. -/
theorem map_suffixes_serve (t : NameTable) (requests : List Request) :
    (t.serve requests).1.map Allocation.suffixes = requests.map Request.suffixes := by
  induction requests generalizing t with
  | nil => rfl
  | cons request requests ih =>
    rw [serve_cons, List.map_cons, List.map_cons, ih]

/-- Everything that is given out is claimed. -/
theorem claims_serve (t : NameTable) {requests : List Request}
    (h : ∀ request ∈ requests, ("" :: request.suffixes).Nodup) :
    t.Claims ((t.serve requests).1.flatMap Allocation.names) (t.serve requests).2 := by
  induction requests generalizing t with
  | nil => exact .nil t
  | cons request requests ih =>
    rw [List.forall_mem_cons] at h
    exact (t.claims_allocate request.base h.1).append (ih _ h.2)

end NameTable

/-! ## Requests of nodes -/

/-- The suffixes of the names that are derived from that of a gadget. -/
def gadgetSuffixes : Gadget → List String
  | .rangeCheck => rangeSuffixes
  | .hash => []
  | .conditional => conditionalSuffixes
  | .merkleProof => merkleSuffixes
  | .modulo => moduloSuffixes

/-- The names that are asked for besides that of a gadget. -/
def gadgetArrays : Gadget → List Request
  | .merkleProof => [⟨"pathElements", []⟩, ⟨"pathIndices", []⟩]
  | _ => []

end CircuitGraph.Circom

namespace CircuitGraph

open CircuitGraph.Circom

/-- The names that a node asks for, in order. -/
def Node.requests (node : Node) : List Request :=
  match node.kind with
  | .input _ label | .output _ label => [⟨labelIdentifier label, []⟩]
  | .operation _ => [⟨nodeIdentifier node.id, []⟩]
  | .gadget gadget _ =>
    ⟨nodeIdentifier node.id, gadgetSuffixes gadget⟩ :: gadgetArrays gadget

namespace Circom

/-- The suffixes that a node asks for are distinct. -/
theorem nodup_suffixes_of_mem_requests {node : Node} {request : Request}
    (h : request ∈ node.requests) : ("" :: request.suffixes).Nodup := by
  have hgadget : ∀ gadget, ("" :: gadgetSuffixes gadget).Nodup := fun gadget => by
    cases gadget <;> decide
  unfold Node.requests at h
  split at h
  · rw [List.mem_singleton.1 h]
    exact areSuffixes_nil.nodup
  · rw [List.mem_singleton.1 h]
    exact areSuffixes_nil.nodup
  · rw [List.mem_singleton.1 h]
    exact areSuffixes_nil.nodup
  · rename_i gadget params _
    rcases List.mem_cons.1 h with rfl | h
    · exact hgadget gadget
    · have harrays : ∀ gadget, ∀ request ∈ gadgetArrays gadget, request.suffixes = [] :=
        fun gadget => by cases gadget <;> decide
      rw [harrays gadget request h]
      exact areSuffixes_nil.nodup

namespace Gate

/-- The names that are asked for when a gate is emitted for a node. -/
def requests (id : String) : Gate → List Request
  | input _ label | output label _ => [⟨labelIdentifier label, []⟩]
  | operation _ _ _ | hash _ => [⟨nodeIdentifier id, []⟩]
  | rangeCheck _ _ _ => [⟨nodeIdentifier id, rangeSuffixes⟩]
  | conditional _ _ _ _ => [⟨nodeIdentifier id, conditionalSuffixes⟩]
  | merkleProof _ _ _ =>
    [⟨nodeIdentifier id, merkleSuffixes⟩, ⟨"pathElements", []⟩, ⟨"pathIndices", []⟩]
  | modulo _ _ => [⟨nodeIdentifier id, moduloSuffixes⟩]

/-- The requests of a gate are served when it is emitted. -/
theorem snd_fragment (config : Config) (node : Node) (names : NameTable) (gate : Gate) :
    (gate.fragment config node names).2 = (names.serve (gate.requests node.id)).2 := by
  cases gate <;> rfl

/-- A node asks for what its gate asks for. -/
theorem IsOf.requests_eq {config : Config} {node : Node} {gate : Gate}
    (h : gate.IsOf config node.kind) : node.requests = gate.requests node.id := by
  unfold Node.requests
  cases gate with
  | input visibility label =>
    rw [show node.kind = .input visibility label from h]
    rfl
  | output label value =>
    obtain ⟨type, hkind⟩ := h
    rw [hkind]
    rfl
  | operation operator a b =>
    rw [show node.kind = .operation operator from h]
    rfl
  | _ =>
    obtain ⟨gadget, params, setting, hkind, hresolve, hsetting⟩ := h
    cases hsetting
    rw [hkind]
    -- the setting belongs to one gadget only
    obtain rfl := Gadget.eq_of_admits (Gadget.admits_of_resolve hresolve)
    rfl

end Gate

/-- The requests of vertices, one after the other. -/
def requestsOf (vs : List Vertex) : List Request := vs.flatMap fun v => v.node.requests

/-- What is given out along the vertices of an order. -/
def allocationsOf (config : Config) (vs : List Vertex) : List Allocation :=
  ((NameTable.initial config.templateName).serve (requestsOf vs)).1

variable {config : Config} {index : Index}

/-- The table of an emission is the one that is left when the requests have been served. -/
theorem Emits.names_eq {vs : List Vertex} {s : Emission} (h : Emits config index vs s) :
    s.names = ((NameTable.initial config.templateName).serve (requestsOf vs)).2 := by
  induction h with
  | initial => rfl
  | @step vs s v gate _ hgate ih =>
    have hrequests : requestsOf (vs ++ [v]) = requestsOf vs ++ gate.requests v.node.id := by
      rw [requestsOf, List.flatMap_append, List.flatMap_singleton,
        (Gate.fits_of_ofNode hgate).isOf.requests_eq]
      rfl
    rw [hrequests, NameTable.serve_append, ← ih]
    exact gate.snd_fragment config v.node s.names

/-- What is given out for one more vertex. -/
theorem Emits.allocationsOf_append {vs : List Vertex} {s : Emission} {v : Vertex} {gate : Gate}
    (h : Emits config index vs s) (hisOf : gate.IsOf config v.node.kind) :
    allocationsOf config (vs ++ [v]) =
      allocationsOf config vs ++ (s.names.serve (gate.requests v.node.id)).1 := by
  rw [allocationsOf, requestsOf, List.flatMap_append, List.flatMap_singleton, hisOf.requests_eq,
    NameTable.serve_append, h.names_eq]
  rfl

/-- No name is given out twice. -/
theorem nodup_allocationsOf (config : Config) (vs : List Vertex) :
    ((allocationsOf config vs).flatMap Allocation.names).Nodup := by
  refine (NameTable.claims_serve _ fun request hrequest => ?_).nodup
  obtain ⟨v, -, hv⟩ := List.mem_flatMap.1 hrequest
  exact nodup_suffixes_of_mem_requests hv

end Circom

end CircuitGraph
