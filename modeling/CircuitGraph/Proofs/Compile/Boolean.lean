import CircuitGraph.Proofs.Circom.Agreement
import CircuitGraph.Proofs.Circom.Membership
import CircuitGraph.Proofs.Compile.Interface
import CircuitGraph.Proofs.Validation.Report

/-!
# Boolean outputs are bits

A node has a type of value, validation warns when a number is wired to a boolean output, and the
text that is emitted knows of no types at all. Here the three are put together: when validation does
not warn, the signal of every boolean output is zero or one in every assignment that keeps the
constraints (`Graph.boolean_outputs_of_validate`).

The gates of boolean nodes end in comparisons, or in the product of two of them, and the outcome of
a comparison is a bit whatever is compared (`Gate.result_eq_zero_or_one`). An output is wired to one
node, listed before it, whose result it is constrained to.
-/

namespace CircuitGraph

/-- A node with an output that is not a number has a boolean there. -/
theorem Node.valueType?_eq_boolean {node : Node} (hport : node.hasOutputPort = true)
    (h : node.valueType? ≠ some .number) : node.valueType? = some .boolean := by
  cases htype : node.valueType? with
  | none =>
    unfold valueType? at htype
    split at htype
    · cases htype
    · cases htype
    · cases htype
    · rename_i hkind
      simp [hasOutputPort, isOutput, hkind] at hport
  | some type =>
    cases type with
    | boolean => rfl
    | number => exact absurd htype h

namespace Circom

variable {p : ℕ} {hash : List (ZMod p) → ZMod p} {σ : Ref → ZMod p}

/-! ## Gates -/

/-- The type of the value that a gate gives. -/
def Gate.valueType? : Gate → Option ValueType
  | .input _ _ | .hash _ | .conditional _ _ _ _ | .modulo _ _ => some .number
  | .output _ _ => none
  | .operation operator _ _ => some operator.valueType
  | .rangeCheck _ _ _ | .merkleProof _ _ _ => some .boolean

/-- The gate of a node gives a value of the type of the node. -/
theorem Gate.IsOf.valueType?_eq {config : Config} {node : Node} {gate : Gate}
    (h : gate.IsOf config node.kind) : node.valueType? = gate.valueType? := by
  unfold Node.valueType?
  cases gate with
  | input visibility label =>
    rw [show node.kind = .input visibility label from h]
    rfl
  | output label value =>
    obtain ⟨type, hkind⟩ := h
    rw [hkind]
    rfl
  | operation operator a b =>
    rw [show node.kind = .operation operator from h]
    rfl
  | _ =>
    obtain ⟨gadget, params, setting, hkind, hresolve, hsetting⟩ := h
    cases hsetting
    rw [hkind]
    -- the setting belongs to one gadget only
    obtain rfl := Gadget.eq_of_admits (Gadget.admits_of_resolve hresolve)
    rfl

/-- The outcome of comparing two field elements is a bit, whatever they are. -/
theorem IsLess.eq_zero_or_one {n : ℕ} {x y out : ZMod p} (h : IsLess n x y out) :
    out = 0 ∨ out = 1 := by
  obtain ⟨b, hbits, rfl⟩ := h
  rcases hbits.bit n (Nat.lt_succ_self n) with hlast | hlast
  · exact .inr (by rw [hlast, sub_zero])
  · exact .inl (by rw [hlast, sub_self])

/-- The output of a comparison is a bit. -/
theorem Template.IsComparison.eq_zero_or_one {template : Template} (h : template.IsComparison)
    {c : Ref} (hσ : template.Holds hash σ c) : σ (c.field "out") = 0 ∨ σ (c.field "out") = 1 := by
  cases template with
  | isEqual =>
    rw [show σ (c.field "out") = _ from hσ]
    split_ifs
    · exact .inr rfl
    · exact .inl rfl
  | num2Bits n => exact h.elim
  | poseidon n => exact h.elim
  | multiMux1 n => exact h.elim
  | _ n => exact IsLess.eq_zero_or_one hσ

variable [Fact p.Prime]

/-- The statements of a comparison make its output a bit. -/
theorem compare_eq_zero_or_one {name : String} (template : Template) {left right : Expr}
    (htemplate : template.IsComparison)
    (h : ∀ s ∈ compare name template left right, s.Holds hash σ none) :
    σ (outputOf name) = 0 ∨ σ (outputOf name) = 1 :=
  htemplate.eq_zero_or_one (compare_holds_iff.1 h).1

/-- The result of a gate that gives a boolean is a bit. -/
theorem Gate.result_eq_zero_or_one {config : Config} (hc : config.Accepted) {node : Node}
    (names : NameTable) {gate : Gate} (htype : gate.valueType? = some .boolean)
    (hσ : ∀ b ∈ (gate.fragment config node names).1.blocks, b.Holds hash σ) {r : Ref}
    (hr : (gate.fragment config node names).1.result = some r) : σ r = 0 ∨ σ r = 1 := by
  have hbits := hc.bits.2
  cases gate with
  | operation operator a b =>
    cases hr
    have hstatements := Block.holds_ofStatements.1 (hσ _ List.mem_cons_self)
    cases operator with
    | gt => exact compare_eq_zero_or_one (.greaterThan _) hbits hstatements
    | lt => exact compare_eq_zero_or_one (.lessThan _) hbits hstatements
    | eq => exact compare_eq_zero_or_one .isEqual trivial hstatements
    | _ => cases htype
  | rangeCheck min max value =>
    cases hr
    -- the result is the product of two outcomes
    have hstatements := Block.holds_ofStatements.1 (hσ _ List.mem_cons_self)
    obtain ⟨habove, hbelow, hresult⟩ := rangeStatements_hold_iff.1 hstatements
    rw [hresult, mul_eq_zero]
    rcases compare_eq_zero_or_one (.greaterEqThan _) hbits habove with habove | habove
    · exact .inl (.inl habove)
    · rcases compare_eq_zero_or_one (.lessEqThan _) hbits hbelow with hbelow | hbelow
      · exact .inl (.inr hbelow)
      · exact .inr (by rw [habove, hbelow, one_mul])
  | merkleProof depth leaf root =>
    cases hr
    have hcommands := hσ _ List.mem_cons_self
    exact compare_eq_zero_or_one .isEqual trivial (merkleCommands_hold_iff.1 hcommands).2.2
  | _ => cases htype

/-! ## Emission -/

variable {config : Config} {index : Index} {vs : List Vertex} {s : Emission}

/-- The result of a vertex that gives a boolean is a bit. -/
theorem Emission.Holds.eq_zero_or_one (hc : config.Accepted) {v : Vertex} {f : Fragment}
    (h : s.Holds config index v f) (htype : v.node.valueType? = some .boolean)
    (hσ : ∀ b ∈ f.blocks, b.Holds hash σ) {r : Ref}
    (hr : s.results.lookup v.position = some r) : σ r = 0 ∨ σ r = 1 := by
  obtain ⟨gate, names, hfits, rfl⟩ := h.gate
  exact Gate.result_eq_zero_or_one hc names (hfits.isOf.valueType?_eq.symm.trans htype) hσ
    (h.result.symm.trans hr)

/-- The signal of an output is a bit when no number is wired to it. -/
theorem Emission.output_eq_zero_or_one (hc : config.Accepted) (hi : index.Sound)
    (ho : index.Orders vs) {fragment : Node → Fragment}
    (hholds : ∀ v ∈ vs, s.Holds config index v (fragment v.node))
    (hσ : ∀ v ∈ vs, ∀ b ∈ (fragment v.node).blocks, b.Holds hash σ) {v : Vertex} (hv : v ∈ vs)
    (houtput : v.node.isOutput = true)
    (htypes : ∀ w ∈ index.incoming v.position, w.source.node.valueType? ≠ some .number) :
    σ (signalRef (fragment v.node).signal) = 0 ∨ σ (signalRef (fragment v.node).signal) = 1 := by
  obtain ⟨value, hfragment, hvalue⟩ := (hholds v hv).signal_eq.2.2.2 houtput
  obtain ⟨w, hw, -, hlookup⟩ := Emission.exists_of_value? hvalue
  -- the output is constrained to the result of its source
  have hsignal : σ (signalRef (fragment v.node).signal) = σ value := by
    have hblocks := hσ v hv
    rw [hfragment] at hblocks
    exact Block.holds_ofStatements.1 (hblocks _ List.mem_cons_self) _ List.mem_cons_self
  have hsource : w.source ∈ vs := by
    obtain ⟨before, after, rfl⟩ := List.append_of_mem hv
    exact List.mem_append_left _ (ho.sources_before before v after rfl w hw)
  have hboolean : w.source.node.valueType? = some .boolean :=
    Node.valueType?_eq_boolean (hi.source_port w (Index.mem_incoming.1 hw).1) (htypes w hw)
  rw [hsignal]
  exact (hholds w.source hsource).eq_zero_or_one hc hboolean (hσ w.source hsource) hlookup

end Circom

open CircuitGraph.Circom CircuitGraph.Text CircuitGraph.Validation

/-! ## Validation -/

/-- When validation does not warn of types, no number is wired to a boolean output. -/
theorem Index.Sound.valueType?_ne_number {index : Index} (hi : index.Sound) {config : Config}
    (h : ∀ d ∈ index.validate config, d.problem ≠ .typeMismatch) {v : Vertex}
    (hv : v ∈ index.vertices) {label : String} (hkind : v.node.kind = .output .boolean label) :
    ∀ w ∈ index.incoming v.position, w.source.node.valueType? ≠ some .number := by
  intro w hw hnumber
  obtain ⟨hwire, hposition⟩ := Index.mem_incoming.1 hw
  obtain rfl : w.target = v :=
    hi.eq_of_position_eq (hi.target_mem_vertices hwire) hv hposition
  have hnone : typeMismatches index = [] := by
    by_contra hne
    have hreport : report config index .typeMismatch ≠ [] := hne
    obtain ⟨d, hd, hproblem⟩ := exists_mem_validate_iff.2 hreport
    exact h d hd hproblem
  have hmismatch := List.filterMap_eq_nil_iff.1 hnone w hwire
  simp [typeMismatchOf?, hkind, hnumber] at hmismatch

/-! ## The whole compilation -/

/-- The type warnings are sound: in a graph without fatal diagnostics, and without a warning that a
number is wired to a boolean output, the signal of every boolean output is zero or one, in every
assignment that keeps the constraints of the emitted unit. -/
theorem Graph.boolean_outputs_of_validate (config : Config) (hc : config.check = .ok ())
    (g : Graph) (h : hasFatal (g.validate config) = false)
    (htypes : ∀ d ∈ g.validate config, d.problem ≠ .typeMismatch) :
    ∃ order u signal, g.linearize = .ok order ∧ emitUnit config order.pruned = .ok u ∧
      (g.compile config).code = u.text ∧ u.body.map Line.text = u.bodyLines ∧ u.ReadsBack ∧
      u.outputs = ((order.vertices.map Vertex.node).filter Node.isOutput).map signal ∧
      ∀ (p : ℕ) [Fact p.Prime] (hash : List (ZMod p) → ZMod p) (σ : Ref → ZMod p),
        u.Holds hash σ → ∀ node ∈ g.nodes, ∀ label, node.kind = .output .boolean label →
          signal node ∈ u.outputs ∧
            (σ (signalRef (signal node)) = 0 ∨ σ (signalRef (signal node)) = 1) := by
  have hc := Config.accepted_of_check hc
  have ha := accepted_of_hasFatal g.index_sound h
  obtain ⟨u, ⟨order, horder, hu⟩, hcode⟩ := exists_unit hc h
  obtain ⟨s, hs, rfl⟩ := emitUnit_eq_ok.1 hu
  obtain ⟨hindex, -, hordered⟩ := Index.linearize_spec g.index_sound horder
  have hpruned : g.index.Orders order.pruned.vertices := by
    rw [LinearOrder.pruned, hindex]
    exact hordered.pruned g.index_sound
  rw [show order.pruned.index = g.index from hindex] at hs
  obtain ⟨fragment, hfragments, hholds⟩ :=
    hs.exists_fragments g.index_sound hpruned (nodup_nodes_of_orders ha hpruned)
  have houtputs : s.fragments.flatMap Fragment.outputs =
      (order.keptNodes.filter Node.isOutput).map fun node => (fragment node).signal := by
    simp only [hfragments, LinearOrder.keptNodes, List.flatMap_map, List.filter_map, List.map_map]
    exact flatMap_eq_map_filter fun v hv => (hholds v hv).signal_eq.2.1
  refine ⟨order, _, fun node => (fragment node).signal, horder, hu, hcode,
    SourceUnit.map_text_body _, readsBack_of_emitUnit hu, ?_, ?_⟩
  · rw [← filter_isOutput_keptNodes horder]
    exact houtputs
  · intro p _ hash σ hσ node hnode label hkind
    have houtput : node.isOutput = true := by simp [Node.isOutput, hkind]
    have hkept : node ∈ order.keptNodes :=
      (mem_keptNodes_iff ha horder hnode).2 ⟨node, hnode, houtput, .refl⟩
    obtain ⟨v, hv, rfl⟩ := List.mem_map.1 hkept
    have hblocks : ∀ v ∈ order.pruned.vertices, ∀ b ∈ (fragment v.node).blocks,
        b.Holds hash σ := by
      intro v hv b hb
      refine hσ b (List.mem_flatMap.2 ⟨fragment v.node, ?_, hb⟩)
      rw [hfragments]
      exact List.mem_map_of_mem hv
    have hvertex := Index.mem_vertices_of_mem_owners (hpruned.owners v hv)
    refine ⟨?_, Emission.output_eq_zero_or_one hc g.index_sound hpruned hholds hblocks hv houtput
      (g.index_sound.valueType?_ne_number htypes hvertex hkind)⟩
    change _ ∈ s.fragments.flatMap Fragment.outputs
    rw [houtputs]
    exact List.mem_map_of_mem (List.mem_filter.2 ⟨hkept, houtput⟩)

/-- The gallery's range check gives no warning, and its output is a bit. -/
theorem Graph.boolean_outputs_rangeVerification :
    let g := Exhibit.rangeVerification.graph
    ({} : Config).check = .ok () ∧ hasFatal (g.validate {}) = false ∧
      (∀ d ∈ g.validate {}, d.problem ≠ .typeMismatch) ∧
      ∃ order u signal, g.linearize = .ok order ∧ emitUnit {} order.pruned = .ok u ∧
        (g.compile {}).code = u.text ∧ u.body.map Line.text = u.bodyLines ∧ u.ReadsBack ∧
        u.outputs = ((order.vertices.map Vertex.node).filter Node.isOutput).map signal ∧
        ∀ (p : ℕ) [Fact p.Prime] (hash : List (ZMod p) → ZMod p) (σ : Ref → ZMod p),
          u.Holds hash σ → ∀ node ∈ g.nodes, ∀ label, node.kind = .output .boolean label →
            signal node ∈ u.outputs ∧
              (σ (signalRef (signal node)) = 0 ∨ σ (signalRef (signal node)) = 1) := by
  have hfatal : hasFatal (Exhibit.rangeVerification.graph.validate {}) = false :=
    Exhibit.hasFatal_rangeVerification rfl
  have hnone : Validation.typeMismatches Exhibit.rangeVerification.graph.index = [] := rfl
  have htypes : ∀ d ∈ Exhibit.rangeVerification.graph.validate {}, d.problem ≠ .typeMismatch := by
    intro d hd hproblem
    rw [Graph.validate, Validation.mem_validate_iff, hproblem] at hd
    rw [Validation.report, hnone] at hd
    exact List.not_mem_nil hd
  exact ⟨rfl, hfatal, htypes, boolean_outputs_of_validate {} rfl _ hfatal htypes⟩

end CircuitGraph
