import CircuitGraph.Circom.Emission
import CircuitGraph.Proofs.Circom.Gate
import CircuitGraph.Proofs.Order.Linear
import CircuitGraph.Proofs.Validation.Accepted

/-!
# Emission, vertex by vertex

`Emits config index vs s` says that emitting the vertices `vs` one after the other leads to the
state `s`; it grows at the end of the list, so a statement about the whole emission is an induction
with one step to show. `Gate.Fits` says everything that is known of the gate which a vertex is
emitted as: what the node is, how its parameters were read, and which value stands at which port.

The main statement is `exists_emits`: on an accepted graph, along an order, no vertex is refused.
-/

namespace CircuitGraph.Circom

/-! ## Gates -/

/-- The values that a gate takes, in the order of the ports. -/
def Gate.operands : Gate → List Ref
  | .input _ _ => []
  | .output _ value | .rangeCheck _ _ value | .modulo _ value => [value]
  | .operation _ a b => [a, b]
  | .hash values => values
  | .conditional _ selector chosen otherwise => [selector, chosen, otherwise]
  | .merkleProof _ leaf root => [leaf, root]

/-- The setting of a gadget that a gate was made from. -/
def Gate.setting? : Gate → Option Setting
  | .rangeCheck min max _ => some (.rangeCheck min max)
  | .hash values => some (.hash values.length)
  | .conditional condition _ _ _ => some (.conditional condition)
  | .merkleProof depth _ _ => some (.merkleProof depth)
  | .modulo modulus _ => some (.modulo modulus)
  | _ => none

/-- The ports that a gate takes its values from, in order. -/
def Gate.ports : Gate → List String
  | .input _ _ => []
  | .output _ _ | .rangeCheck _ _ _ | .modulo _ _ => ["in"]
  | .operation _ _ _ => ["a", "b"]
  | .hash values => (List.range values.length).map hashPort
  | .conditional _ _ _ _ => ["cond", "then", "else"]
  | .merkleProof _ _ _ => ["leaf", "root"]

/-- Whether a gate is what a node of this kind is emitted as. -/
def Gate.IsOf (config : Config) (kind : NodeKind) : Gate → Prop
  | .input visibility label => kind = .input visibility label
  | .output label _ => ∃ type, kind = .output type label
  | .operation operator _ _ => kind = .operation operator
  | gate => ∃ gadget params setting, kind = .gadget gadget params ∧
      gadget.resolve config params = .ok setting ∧ gate.setting? = some setting

/-- What is known of the gate that a node is emitted as. -/
structure Gate.Fits (config : Config) (node : Node) (value? : String → Option Ref) (gate : Gate) :
    Prop where
  /-- The gate is what the node says. -/
  isOf : gate.IsOf config node.kind
  /-- The values stand at the ports. -/
  values : gate.ports.map value? = gate.operands.map some

namespace Gate

variable {config : Config} {node : Node} {value? : String → Option Ref}

/-- An operand is the value at its port. -/
theorem operand_eq_ok {port : String} {r : Ref} (h : operand node value? port = .ok r) :
    value? port = some r := by
  unfold operand at h
  split at h
  · rename_i value hvalue
    cases h
    exact hvalue
  · cases h

/-- The operands of a hash are the values at its ports, from the first one on. -/
theorem hashOperands_eq_ok {count position : Nat} {values : List Ref}
    (h : hashOperands (operand node value?) count position = .ok values) :
    values.length = count ∧
      ((List.range' position count).map hashPort).map value? = values.map some := by
  induction count generalizing position values with
  | zero =>
    cases pure_eq_ok.1 h
    exact ⟨rfl, rfl⟩
  | succ count ih =>
    obtain ⟨r, hr, h⟩ := bind_eq_ok.1 h
    obtain ⟨rest, hrest, h⟩ := bind_eq_ok.1 h
    cases pure_eq_ok.1 h
    obtain ⟨hlength, hvalues⟩ := ih hrest
    refine ⟨congrArg (· + 1) hlength, ?_⟩
    rw [List.range'_succ, List.map_cons, List.map_cons, List.map_cons, operand_eq_ok hr, hvalues]

/-- The gate of a gadget has its setting, and its values stand at the ports. -/
theorem ofSetting_eq_ok {setting : Setting} {gate : Gate}
    (h : ofSetting (operand node value?) setting = .ok gate) :
    gate.setting? = some setting ∧ gate.ports.map value? = gate.operands.map some := by
  cases setting with
  | rangeCheck min max =>
    obtain ⟨r, hr, h⟩ := bind_eq_ok.1 h
    cases pure_eq_ok.1 h
    exact ⟨rfl, congrArg (fun x => [x]) (operand_eq_ok hr)⟩
  | hash inputs =>
    obtain ⟨values, hvalues, h⟩ := bind_eq_ok.1 h
    cases pure_eq_ok.1 h
    obtain ⟨rfl, hports⟩ := hashOperands_eq_ok hvalues
    refine ⟨rfl, ?_⟩
    rw [Gate.ports, List.range_eq_range']
    exact hports
  | conditional condition =>
    obtain ⟨c, hcond, h⟩ := bind_eq_ok.1 h
    obtain ⟨t, hthen, h⟩ := bind_eq_ok.1 h
    obtain ⟨e, helse, h⟩ := bind_eq_ok.1 h
    cases pure_eq_ok.1 h
    refine ⟨rfl, ?_⟩
    simp only [Gate.ports, Gate.operands, List.map_cons, List.map_nil, operand_eq_ok hcond,
      operand_eq_ok hthen, operand_eq_ok helse]
  | merkleProof depth =>
    obtain ⟨l, hleaf, h⟩ := bind_eq_ok.1 h
    obtain ⟨r, hroot, h⟩ := bind_eq_ok.1 h
    cases pure_eq_ok.1 h
    refine ⟨rfl, ?_⟩
    simp only [Gate.ports, Gate.operands, List.map_cons, List.map_nil, operand_eq_ok hleaf,
      operand_eq_ok hroot]
  | modulo modulus =>
    obtain ⟨r, hr, h⟩ := bind_eq_ok.1 h
    cases pure_eq_ok.1 h
    exact ⟨rfl, congrArg (fun x => [x]) (operand_eq_ok hr)⟩

/-- A gate with a setting is that of a gadget. -/
theorem isOf_gadget {kind : NodeKind} {gadget : Gadget} {params : Params} {setting : Setting}
    {gate : Gate} (hkind : kind = .gadget gadget params)
    (hresolve : gadget.resolve config params = .ok setting)
    (hsetting : gate.setting? = some setting) : gate.IsOf config kind := by
  cases gate with
  | input _ _ => cases hsetting
  | output _ _ => cases hsetting
  | operation _ _ _ => cases hsetting
  | _ => exact ⟨gadget, params, setting, hkind, hresolve, hsetting⟩

/-- The gate of a node with a gadget is that of the setting that is read. -/
theorem ofNode_gadget {gadget : Gadget} {params : Params} {setting : Setting}
    (hkind : node.kind = .gadget gadget params)
    (hresolve : gadget.resolve config params = .ok setting) :
    ofNode config node value? = ofSetting (operand node value?) setting := by
  unfold ofNode
  rw [hkind]
  dsimp only
  rw [hresolve]

/-- The gate that a node is emitted as fits it. -/
theorem fits_of_ofNode {gate : Gate} (h : ofNode config node value? = .ok gate) :
    gate.Fits config node value? := by
  unfold ofNode at h
  dsimp only at h
  split at h
  · rename_i visibility label hkind
    cases h
    exact ⟨hkind, rfl⟩
  · rename_i operator hkind
    obtain ⟨a, ha, h⟩ := bind_eq_ok.1 h
    obtain ⟨b, hb, h⟩ := bind_eq_ok.1 h
    cases pure_eq_ok.1 h
    refine ⟨hkind, ?_⟩
    simp only [Gate.ports, Gate.operands, List.map_cons, List.map_nil, operand_eq_ok ha,
      operand_eq_ok hb]
  · rename_i gadget params hkind
    split at h
    · rename_i setting hresolve
      obtain ⟨hsetting, hvalues⟩ := ofSetting_eq_ok h
      exact ⟨isOf_gadget hkind hresolve hsetting, hvalues⟩
    · cases h
  · rename_i type label hkind
    obtain ⟨value, hvalue, h⟩ := bind_eq_ok.1 h
    cases pure_eq_ok.1 h
    exact ⟨⟨type, hkind⟩, congrArg (fun x => [x]) (operand_eq_ok hvalue)⟩

/-- The ports of a gate are those that its node declares. -/
theorem Fits.ports_eq (hc : config.Accepted) {gate : Gate} (h : gate.Fits config node value?) :
    node.ports.names = gate.ports := by
  have hisOf := h.isOf
  unfold Node.ports
  cases gate with
  | input visibility label =>
    rw [show node.kind = .input visibility label from hisOf]
    rfl
  | output label value =>
    obtain ⟨type, hkind⟩ := hisOf
    rw [hkind]
    rfl
  | operation operator a b =>
    rw [show node.kind = .operation operator from hisOf]
    rfl
  | _ =>
    obtain ⟨gadget, params, setting, hkind, hresolve, hsetting⟩ := hisOf
    cases hsetting
    rw [hkind]
    exact (Gadget.names_ports_of_resolve hc hresolve).1

/-- The operands of a gate are the values at the ports of its node, one for each. -/
theorem Fits.forall₂_values (hc : config.Accepted) {gate : Gate}
    (h : gate.Fits config node value?) :
    List.Forall₂ (fun port r => value? port = some r) node.ports.names gate.operands := by
  rw [h.ports_eq hc]
  -- the two mapped lists are equal, so their elements correspond
  have heq := List.forall₂_eq_eq_eq.symm ▸ h.values
  rwa [List.forall₂_map_left_iff, List.forall₂_map_right_iff] at heq

end Gate

/-! ## Steps -/

namespace Emission

/-- The state after a vertex has been emitted as a gate. -/
def after (config : Config) (s : Emission) (v : Vertex) (gate : Gate) : Emission :=
  let emitted := gate.fragment config v.node s.names
  let results := match emitted.1.result with
    | some r => (v.position, r) :: s.results
    | none => s.results
  ⟨emitted.2, results, s.fragments ++ [emitted.1]⟩

/-- A vertex is emitted as the gate that is made of it. -/
theorem step_eq_ok {config : Config} {index : Index} {s s' : Emission} {v : Vertex} :
    step config index s v = .ok s' ↔
      ∃ gate, Gate.ofNode config v.node (value? index s.results v) = .ok gate ∧
        s.after config v gate = s' := by
  unfold step
  rw [bind_eq_ok]
  exact exists_congr fun gate => and_congr_right fun _ => pure_eq_ok

end Emission

/-- Emitting the vertices one after the other leads to the state. -/
inductive Emits (config : Config) (index : Index) : List Vertex → Emission → Prop
  /-- Nothing has been emitted. -/
  | initial : Emits config index [] (.initial config)
  /-- One more vertex is emitted. -/
  | step {vs : List Vertex} {s : Emission} {v : Vertex} {gate : Gate} (h : Emits config index vs s)
      (hgate : Gate.ofNode config v.node (Emission.value? index s.results v) = .ok gate) :
      Emits config index (vs ++ [v]) (s.after config v gate)

variable {config : Config} {index : Index}

/-- Emitting nothing leaves the state before the first vertex. -/
theorem Emits.eq_initial {s : Emission} (h : Emits config index [] s) : s = .initial config := by
  generalize hvs : [] = vs at h
  cases h with
  | initial => rfl
  | step h hgate => exact absurd hvs.symm (by simp)

/-- The last vertex is emitted in the state that the vertices before it lead to. -/
theorem Emits.exists_of_append {vs : List Vertex} {v : Vertex} {s' : Emission}
    (h : Emits config index (vs ++ [v]) s') :
    ∃ s gate, Emits config index vs s ∧
      Gate.ofNode config v.node (Emission.value? index s.results v) = .ok gate ∧
      s.after config v gate = s' := by
  -- the constructor has the list in this form only up to an equation
  generalize hvs : vs ++ [v] = us at h
  cases h with
  | initial => exact absurd hvs (by simp)
  | step h hgate =>
    obtain ⟨rfl, hlast⟩ := List.append_inj' hvs rfl
    cases hlast
    exact ⟨_, _, h, hgate, rfl⟩

/-- Every vertex has one fragment. -/
theorem Emits.length_fragments {vs : List Vertex} {s : Emission} (h : Emits config index vs s) :
    s.fragments.length = vs.length := by
  induction h with
  | initial => rfl
  | step _ _ ih =>
    rw [Emission.after, List.length_append, List.length_append, List.length_singleton,
      List.length_singleton, ih]

/-- Every fragment is that of a gate. -/
theorem Emits.exists_gate {vs : List Vertex} {s : Emission} (h : Emits config index vs s)
    {f : Fragment} (hf : f ∈ s.fragments) :
    ∃ (gate : Gate) (node : Node) (names : NameTable),
      (gate.fragment config node names).1 = f := by
  induction h with
  | initial => cases hf
  | @step vs s v gate h hgate ih =>
    rcases List.mem_append.1 hf with hf | hf
    · exact ih hf
    · exact ⟨gate, v.node, s.names, (List.mem_singleton.1 hf).symm⟩

/-- Each vertex is emitted in the state that the vertices before it lead to, and its fragment stands
behind theirs. -/
theorem Emits.exists_fragments_of_split {before after : List Vertex} {v : Vertex} {s' : Emission}
    (h : Emits config index (before ++ v :: after) s') :
    ∃ s gate right, Emits config index before s ∧
      Gate.ofNode config v.node (Emission.value? index s.results v) = .ok gate ∧
      s'.fragments = s.fragments ++ (gate.fragment config v.node s.names).1 :: right := by
  induction after using List.reverseRecOn generalizing s' with
  | nil =>
    obtain ⟨s, gate, hs, hgate, rfl⟩ := h.exists_of_append
    exact ⟨s, gate, [], hs, hgate, rfl⟩
  | append_singleton after last ih =>
    rw [← List.cons_append, ← List.append_assoc] at h
    obtain ⟨s₀, gate₀, hs₀, -, rfl⟩ := h.exists_of_append
    obtain ⟨s, gate, right, hs, hgate, hfragments⟩ := ih hs₀
    refine ⟨s, gate, right ++ [(gate₀.fragment config last.node s₀.names).1], hs, hgate, ?_⟩
    rw [Emission.after, hfragments, List.append_assoc, List.cons_append]

/-- Each vertex is emitted in the state that the vertices before it lead to, and its fragment is
kept. -/
theorem Emits.exists_of_split {before after : List Vertex} {v : Vertex} {s' : Emission}
    (h : Emits config index (before ++ v :: after) s') :
    ∃ s gate, Emits config index before s ∧
      Gate.ofNode config v.node (Emission.value? index s.results v) = .ok gate ∧
      (gate.fragment config v.node s.names).1 ∈ s'.fragments := by
  obtain ⟨s, gate, right, hs, hgate, hfragments⟩ := h.exists_fragments_of_split
  exact ⟨s, gate, hs, hgate, hfragments ▸ List.mem_append_right _ List.mem_cons_self⟩

/-- A vertex becomes a gate and its fragment, once the vertices before it have been emitted. -/
def Fragment.OfVertex (config : Config) (index : Index) (before : List Vertex) (v : Vertex)
    (gate : Gate) (f : Fragment) : Prop :=
  ∃ s, Emits config index before s ∧
    Gate.ofNode config v.node (Emission.value? index s.results v) = .ok gate ∧
    (gate.fragment config v.node s.names).1 = f

/-- When the vertices before it in an order have been emitted, a value is at a port of a vertex. -/
def Ref.AtPort (config : Config) (index : Index) (before : List Vertex) (v : Vertex) (port : String)
    (r : Ref) : Prop :=
  ∃ s, Emits config index before s ∧ Emission.value? index s.results v port = some r

/-- Folding the steps over the vertices leads to the state that they are emitted to. -/
theorem emits_iff {vs : List Vertex} {s : Emission} :
    vs.foldlM (Emission.step config index) (Emission.initial config) = .ok s ↔
      Emits config index vs s := by
  induction vs using List.reverseRecOn generalizing s with
  | nil =>
    constructor
    · intro h
      cases pure_eq_ok.1 h
      exact .initial
    · intro h
      exact pure_eq_ok.2 h.eq_initial.symm
  | append_singleton vs v ih =>
    rw [List.foldlM_append, bind_eq_ok]
    constructor
    · rintro ⟨s₀, hs₀, hstep⟩
      obtain ⟨s₁, hs₁, hpure⟩ := bind_eq_ok.1 hstep
      cases pure_eq_ok.1 hpure
      obtain ⟨gate, hgate, rfl⟩ := Emission.step_eq_ok.1 hs₁
      exact .step (ih.1 hs₀) hgate
    · intro h
      obtain ⟨s₀, gate, hs₀, hgate, hafter⟩ := h.exists_of_append
      exact ⟨s₀, ih.2 hs₀, bind_eq_ok.2 ⟨s, Emission.step_eq_ok.2 ⟨gate, hgate, hafter⟩, rfl⟩⟩

/-- The unit of an order is made of the fragments of its vertices. -/
theorem emitUnit_eq_ok {order : LinearOrder} {u : SourceUnit} :
    emitUnit config order = .ok u ↔
      ∃ s, Emits config order.index order.vertices s ∧ .ofFragments config s.fragments = u := by
  unfold emitUnit
  rw [bind_eq_ok]
  exact exists_congr fun s => and_congr emits_iff pure_eq_ok

/-- The source of an order is the text of its unit. -/
theorem tryEmit_eq_ok {order : LinearOrder} {code : String} :
    tryEmit config order = .ok code ↔ ∃ u, emitUnit config order = .ok u ∧ u.text = code := by
  unfold tryEmit
  rw [bind_eq_ok]
  exact exists_congr fun u => and_congr_right fun _ => pure_eq_ok

/-- A unit is what a graph is emitted as, without the vertices that feed no output. -/
def SourceUnit.OfGraph (config : Config) (g : Graph) (u : SourceUnit) : Prop :=
  ∃ order, g.linearize = .ok order ∧ emitUnit config order.pruned = .ok u

/-! ## Results -/

/-- Only the gate of an output has no result. -/
theorem Gate.isSome_result {gate : Gate} {node : Node} (h : gate.IsOf config node.kind)
    (hport : node.hasOutputPort = true) (names : NameTable) :
    (gate.fragment config node names).1.result.isSome = true := by
  cases gate with
  | output label value =>
    obtain ⟨type, hkind⟩ := h
    simp [Node.hasOutputPort, Node.isOutput, hkind] at hport
  | _ => rfl

/-- Results belong to positions that have been emitted. -/
theorem Emits.mem_of_mem_results {vs : List Vertex} {s : Emission} (h : Emits config index vs s)
    {e : Nat × Ref} (he : e ∈ s.results) : ∃ v ∈ vs, v.position = e.1 := by
  induction h with
  | initial => cases he
  | @step vs s v gate h hgate ih =>
    have hold : e ∈ s.results → ∃ u ∈ vs ++ [v], u.position = e.1 := fun he =>
      let ⟨u, hu, hp⟩ := ih he
      ⟨u, List.mem_append_left _ hu, hp⟩
    simp only [Emission.after] at he
    split at he
    · rcases List.mem_cons.1 he with rfl | he
      · exact ⟨v, by simp, rfl⟩
      · exact hold he
    · exact hold he

/-- Emitting another position keeps the results. -/
theorem Emission.lookup_after {s : Emission} {v : Vertex} {gate : Gate} {p : Nat}
    (hp : p ≠ v.position) : (s.after config v gate).results.lookup p = s.results.lookup p := by
  simp only [Emission.after]
  split
  · rw [List.lookup_cons, beq_eq_false_iff_ne.2 hp]
  · rfl

/-- Every vertex with an output that has been emitted has a result. -/
theorem Emits.isSome_lookup (hi : index.Sound) {vs : List Vertex} {s : Emission}
    (h : Emits config index vs s) (hvs : ∀ v ∈ vs, v ∈ index.vertices) {v : Vertex} (hv : v ∈ vs)
    (hport : v.node.hasOutputPort = true) : (s.results.lookup v.position).isSome = true := by
  induction h with
  | initial => cases hv
  | @step vs s u gate h hgate ih =>
    -- either the vertex has just been emitted, or its result is still there
    by_cases hp : v.position = u.position
    · have hvu : v = u := hi.eq_of_position_eq (hvs v hv) (hvs u (by simp)) hp
      subst hvu
      have hresult := Gate.isSome_result (Gate.fits_of_ofNode hgate).isOf hport s.names
      obtain ⟨r, hr⟩ := Option.isSome_iff_exists.1 hresult
      simp [Emission.after, hr]
    · rw [Emission.lookup_after hp]
      rcases List.mem_append.1 hv with hv | hv
      · exact ih (fun x hx => hvs x (List.mem_append_left _ hx)) hv
      · exact absurd (by rw [List.mem_singleton.1 hv]) hp

/-- The value at a port is the result of the source of a wire into the port. -/
theorem Emission.exists_of_value? {results : List (Nat × Ref)} {v : Vertex} {port : String}
    {r : Ref} (h : value? index results v port = some r) :
    ∃ w ∈ index.incoming v.position,
      w.edge.targetPort = port ∧ results.lookup w.source.position = some r := by
  obtain ⟨w, hw, hr⟩ := List.exists_of_findSome?_eq_some h
  split_ifs at hr with hport
  exact ⟨w, hw, hport, hr⟩

/-- A port has a value when a wire into it comes from a vertex with a result. -/
theorem Emission.isSome_value? {results : List (Nat × Ref)} {v : Vertex} {w : Wire}
    (hw : w ∈ index.incoming v.position)
    (hresult : (results.lookup w.source.position).isSome = true) :
    (value? index results v w.edge.targetPort).isSome = true := by
  unfold value?
  rw [List.findSome?_isSome_iff]
  exact ⟨w, hw, by rw [if_pos rfl]; exact hresult⟩

/-! ## The fragment of each vertex -/

/-- What became of a vertex in the end: its fragment is that of a gate which fits it, and carries
its result. -/
structure Emission.Holds (config : Config) (index : Index) (s : Emission) (v : Vertex)
    (f : Fragment) : Prop where
  /-- The fragment is that of a gate for the node, with the values at its ports. -/
  gate : ∃ (gate : Gate) (names : NameTable), gate.Fits config v.node (value? index s.results v) ∧
    (gate.fragment config v.node names).1 = f
  /-- The result of the fragment is that of the vertex. -/
  result : s.results.lookup v.position = f.result

namespace Emission

/-- Emitting a vertex that has no wire to another one keeps the values at the ports of that one. -/
theorem value?_after {s : Emission} {u v : Vertex} {gate : Gate}
    (h : ∀ w ∈ index.incoming u.position, w.source.position ≠ v.position) :
    value? index (s.after config v gate).results u = value? index s.results u := by
  funext port
  unfold value?
  generalize index.incoming u.position = wires at h
  induction wires with
  | nil => rfl
  | cons w ws ih =>
    rw [List.findSome?_cons, List.findSome?_cons, lookup_after (h w List.mem_cons_self),
      ih fun x hx => h x (List.mem_cons_of_mem _ hx)]

/-- What became of a vertex remains so when another one is emitted behind it. -/
theorem Holds.after {s : Emission} {u v : Vertex} {f : Fragment} {gate : Gate}
    (h : s.Holds config index u f) (hne : u.position ≠ v.position)
    (hsources : ∀ w ∈ index.incoming u.position, w.source.position ≠ v.position) :
    (s.after config v gate).Holds config index u f where
  gate := by
    rw [value?_after hsources]
    exact h.gate
  result := by
    rw [lookup_after hne]
    exact h.result

end Emission

/-- The vertex that has just been emitted has become the fragment of its gate. -/
theorem Emits.holds_last {vs : List Vertex} {s : Emission} {v : Vertex} {gate : Gate}
    (h : Emits config index vs s)
    (hgate : Gate.ofNode config v.node (Emission.value? index s.results v) = .ok gate)
    (hnew : ∀ u ∈ vs, u.position ≠ v.position)
    (hsources : ∀ w ∈ index.incoming v.position, w.source.position ≠ v.position) :
    (s.after config v gate).Holds config index v (gate.fragment config v.node s.names).1 where
  gate := by
    rw [Emission.value?_after hsources]
    exact ⟨gate, s.names, Gate.fits_of_ofNode hgate, rfl⟩
  result := by
    -- no vertex with this position has been emitted, so only the new result can be found
    have hnone : s.results.lookup v.position = none := by
      refine List.lookup_eq_none_iff.2 fun e he => ?_
      obtain ⟨u, hu, hposition⟩ := h.mem_of_mem_results he
      simpa [← hposition] using (hnew u hu).symm
    simp only [Emission.after]
    split
    · rename_i r hr
      rw [List.lookup_cons_self, hr]
    · rename_i hr
      rw [hnone, hr]

/-- Along an order each vertex becomes one fragment, which can be told from its node. -/
theorem Emits.exists_fragments (hi : index.Sound) {vs : List Vertex} {s : Emission}
    (h : Emits config index vs s) (ho : index.Orders vs) (hnodes : (vs.map Vertex.node).Nodup) :
    ∃ fragment : Node → Fragment, s.fragments = vs.map (fun v => fragment v.node) ∧
      ∀ v ∈ vs, s.Holds config index v (fragment v.node) := by
  induction h with
  | initial => exact ⟨fun _ => {}, rfl, nofun⟩
  | @step vs s v gate h hgate ih =>
    rw [List.map_append, List.nodup_append'] at hnodes
    obtain ⟨fragment, hfragments, hholds⟩ := ih ho.init hnodes.1
    have hvertex : ∀ u ∈ vs ++ [v], u ∈ index.vertices := fun u hu =>
      Index.mem_vertices_of_mem_owners (ho.owners u hu)
    have hlast : v ∉ vs := fun hv => (List.nodup_append'.1 ho.nodup).2.2 hv (by simp)
    have hnew : ∀ u ∈ vs, u.position ≠ v.position := by
      intro u hu hposition
      have huv : u = v :=
        hi.eq_of_position_eq (hvertex u (by simp [hu])) (hvertex v (by simp)) hposition
      exact hlast (huv ▸ hu)
    have hnode : ∀ u ∈ vs, u.node ≠ v.node := fun u hu heq =>
      hnodes.2.2 (List.mem_map_of_mem hu) (by simp [heq])
    -- what arrives at a listed vertex comes from one listed before it, so not from the last one
    have hsources : ∀ u ∈ vs ++ [v], ∀ w ∈ index.incoming u.position,
        w.source.position ≠ v.position := by
      intro u hu w hw
      obtain ⟨before, after, hsplit⟩ := List.append_of_mem hu
      have hsource := ho.sources_before before u after hsplit w hw
      refine hnew w.source ?_
      rcases List.eq_nil_or_concat after with rfl | ⟨after, last, rfl⟩
      · rwa [(List.append_inj' hsplit rfl).1]
      · rw [List.concat_eq_append, ← List.cons_append, ← List.append_assoc] at hsplit
        rw [(List.append_inj' hsplit rfl).1]
        exact List.mem_append_left _ hsource
    -- nodes of the order are distinct, so a fragment can be assigned to the last one alone
    refine ⟨Function.update fragment v.node (gate.fragment config v.node s.names).1, ?_, ?_⟩
    · rw [List.map_append, List.map_singleton, Function.update_self, Emission.after, hfragments]
      refine congrArg (· ++ _) (List.map_congr_left fun u hu => ?_)
      rw [Function.update_of_ne (hnode u hu)]
    · intro u hu
      rcases List.mem_append.1 hu with hold | hold
      · rw [Function.update_of_ne (hnode u hold)]
        exact (hholds u hold).after (hnew u hold) (hsources u hu)
      · cases List.mem_singleton.1 hold
        rw [Function.update_self]
        exact h.holds_last hgate hnew (hsources v hu)

/-! ## Emission succeeds -/

/-- When an order has been emitted up to a vertex, all that is wired to the vertex has a result. -/
theorem Emits.isSome_lookup_source (hi : index.Sound) {vs : List Vertex} {s : Emission}
    (h : Emits config index vs s) {v : Vertex} (ho : index.Orders (vs ++ [v])) {w : Wire}
    (hw : w ∈ index.incoming v.position) :
    (s.results.lookup w.source.position).isSome = true := by
  have hsource : w.source ∈ vs := ho.sources_before vs v [] rfl w hw
  have hport := hi.source_port w (Index.mem_incoming.1 hw).1
  exact h.isSome_lookup hi (fun u hu => Index.mem_vertices_of_mem_owners
    (ho.owners u (List.mem_append_left _ hu))) hsource hport

/-- Along an order of an accepted graph every vertex is emitted. -/
theorem exists_emits (hc : config.Accepted) (hi : index.Sound) (ha : index.Accepted config)
    {vs : List Vertex} (ho : index.Orders vs) : ∃ s, Emits config index vs s := by
  induction vs using List.reverseRecOn with
  | nil => exact ⟨_, .initial⟩
  | append_singleton vs v ih =>
    obtain ⟨s, hs⟩ := ih ho.init
    have hv : v ∈ index.owners := ho.owners v (by simp)
    have hvalue : ∀ port ∈ v.node.ports.names,
        (Emission.value? index s.results v port).isSome = true := by
      intro port hport
      -- exactly one wire arrives at the port, and its source has a result
      have hcount := ha.count_targetPort hv hport
      obtain ⟨w, hw, rfl⟩ := List.mem_map.1 (List.count_pos_iff.1 (hcount ▸ Nat.one_pos))
      exact Emission.isSome_value? hw (hs.isSome_lookup_source hi ho hw)
    obtain ⟨gate, hgate⟩ := (Gate.exists_ofNode_iff hc).2
      (Node.refusal?_eq_none_iff.2 ⟨Node.paramError?_eq_none_iff.2 (ha.resolves v hv), hvalue⟩)
    exact ⟨_, hs.step hgate⟩

end CircuitGraph.Circom
