import CircuitGraph.Proofs.Circom.Legible
import CircuitGraph.Proofs.Circom.Reading
import CircuitGraph.Proofs.Compile.Gating

/-!
# Compilation preserves the dataflow

What an emitted unit computes is read off its lines, and the lines are read off its text
(`SourceUnit.ReadsBack`). From the line that assigns an output, each reference is replaced by the
operation of the block that declares it, until the inputs are reached (`SourceUnit.Unfolds`). The
term that comes out is the one that the graph gives when its edges are followed back from the output
(`Graph.Traces`), and neither side allows another one.

The argument is an induction along the linear order. A name belongs to one fragment only
(`Emits.eq_of_mem_declares`), so a reference unfolds in one way; a port has one source only, so a
node traces in one way; and the operands of the fragment are the results of these sources.
-/

namespace CircuitGraph.Circom

namespace SourceUnit

/-- Replacing references by the operations of their blocks gives a term. -/
inductive Unfolds (u : SourceUnit) : Ref → Term → Prop
  /-- An input stands for itself. -/
  | input {name : String} (h : (⟨name, none⟩ : InputDecl) ∈ u.inputs) :
      Unfolds u (signalRef name) (.input name)
  /-- The result of a block stands for its operation on what the operands stand for. -/
  | apply {b : Block} {r : Ref} {operation : Operation} {operands : List Ref} {args : List Term}
      (hb : b ∈ u.blocks) (hreading : b.reading? = some ⟨r, operation, operands⟩)
      (hargs : List.Forall₂ (Unfolds u) operands args) : Unfolds u r (.apply operation args)

/-- A line assigns an expression to a signal of the template. -/
def Assigns (u : SourceUnit) (name : String) (e : Expr) : Prop :=
  .statement false (.constrain (signalRef name) e) ∈ u.body

/-- The names of the inputs that are not arrays. -/
def scalarInputs (u : SourceUnit) : List String :=
  (u.inputs.filter fun d => d.size.isNone).map InputDecl.name

/-- A unit computes what the nodes of a graph, in the given order, say. -/
structure Renders (u : SourceUnit) (config : Config) (g : Graph) (nodes : List Node)
    (signal : Node → String) : Prop where
  /-- One signal is declared for each input. -/
  inputs_eq : u.scalarInputs = (nodes.filter Node.isInput).map signal
  /-- One signal is declared for each output. -/
  outputs_eq : u.outputs = (nodes.filter Node.isOutput).map signal
  /-- One reference is assigned to the signal of each output, and what it unfolds to is the term
  that the graph delivers to the output. -/
  term_eq : ∀ output ∈ g.nodes, output.isOutput = true →
    ∃ r t, (∀ e, u.Assigns (signal output) e ↔ e = .ref r) ∧
      (∀ t', u.Unfolds r t' ↔ t' = t) ∧ ∀ t', g.Delivers config signal output t' ↔ t' = t

end SourceUnit

variable {config : Config} {index : Index} {vs : List Vertex} {s : Emission}

/-! ## Names lead to fragments -/

/-- When lists are distinct altogether, an element belongs to one of them only. -/
theorem eq_of_nodup_flatMap {α β : Type} {l : List α} {f : α → List β} (h : (l.flatMap f).Nodup)
    {a b : α} (ha : a ∈ l) (hb : b ∈ l) {x : β} (hx : x ∈ f a) (hx' : x ∈ f b) : a = b := by
  by_contra hne
  have : Std.Symm (Function.onFun List.Disjoint f) := ⟨fun _ _ => List.Disjoint.symm⟩
  exact (List.nodup_flatMap.1 h).2.forall ha hb hne hx hx'

/-- A name is declared by one fragment only. -/
theorem Emits.eq_of_mem_declares (h : Emits config index vs s) {f f' : Fragment} {n : String}
    (hf : f ∈ s.fragments) (hf' : f' ∈ s.fragments) (hn : n ∈ f.declares) (hn' : n ∈ f'.declares) :
    f = f' :=
  eq_of_nodup_flatMap h.tracked.grants.nodup hf hf' hn hn'

/-- A scalar input is declared by a gate without blocks, whose result it is. -/
theorem Gate.result_eq_of_scalar (config : Config) (node : Node) (names : NameTable) {gate : Gate}
    {name : String}
    (h : (⟨name, none⟩ : InputDecl) ∈ (gate.fragment config node names).1.inputs) :
    (gate.fragment config node names).1.result = some (signalRef name) ∧
      (gate.fragment config node names).1.blocks = [] := by
  cases gate with
  | input visibility label =>
    cases List.mem_singleton.1 h
    exact ⟨rfl, rfl⟩
  | merkleProof depth leaf root =>
    rcases List.mem_cons.1 h with h | h
    · cases h
    · cases List.mem_singleton.1 h
  | _ => cases h

/-- If a line constrains a signal to a value, the signal belongs to one of the names. -/
@[simp] def Line.Targets (names : List String) : Line → Prop
  | .statement _ (.constrain target _) => target.name ∈ names
  | _ => True

/-- A gate constrains signals that it declares. -/
theorem Gate.targets (config : Config) (node : Node) (names : NameTable) (gate : Gate) :
    ∀ line ∈ (gate.fragment config node names).1.blocks.flatMap Block.body,
      line.Targets (gate.fragment config node names).1.declares := by
  cases gate with
  | input visibility label => nofun
  | output label value =>
    simp [fragment, Fragment.output, Fragment.declares, declared, Block.ofStatements, signalRef]
  | operation operator a b =>
    cases operator <;>
      simp [fragment, Fragment.operation, Fragment.operationStatements, Fragment.arithmetic,
        Fragment.declares, declared, Block.ofStatements, compare, Ref.atPlace, Ref.field, signalRef]
  | rangeCheck min max value =>
    simp [fragment, Fragment.rangeCheck, Fragment.rangeStatements, Fragment.declares, declared,
      Block.ofStatements, compare, Ref.atPlace, Ref.field, signalRef]
  | hash values =>
    intro line hline
    obtain rfl | rfl | rfl | ⟨value, -, i, rfl⟩ := Fragment.mem_body_hash hline
    · trivial
    · trivial
    · trivial
    · rw [fragment, Fragment.declares_hash]
      exact List.mem_singleton_self _
  | conditional condition selector chosen otherwise =>
    simp [fragment, Fragment.conditional, Fragment.conditionalStatements, Fragment.declares,
      declared, Block.ofStatements, compare, Ref.atPlace, Ref.field, signalRef]
  | merkleProof depth leaf root =>
    simp [fragment, Fragment.merkleProof, Fragment.merkleCommands, Fragment.merkleLevel,
      Fragment.declares, declared, compare, Ref.atPlace, Ref.atCounter, Ref.field, signalRef]
  | modulo modulus value =>
    simp [fragment, Fragment.modulo, Fragment.moduloStatements, Fragment.declares, declared,
      Block.ofStatements, compare, Ref.atPlace, Ref.field, signalRef]

/-! ## What a reference unfolds to -/

/-- The result of a fragment belongs to a name that the fragment declares. -/
theorem Emits.mem_declares_of_result (h : Emits config index vs s) {f : Fragment}
    (hf : f ∈ s.fragments) {r : Ref} (hr : f.result = some r) : r.name ∈ f.declares := by
  obtain ⟨gate, node, names, rfl⟩ := h.exists_gate hf
  exact gate.mem_declares_of_result config node names hr

/-- The result of a fragment unfolds by what the fragment itself declares. -/
theorem Emits.unfolds_iff (h : Emits config index vs s) {f : Fragment} (hf : f ∈ s.fragments)
    {r : Ref} (hr : f.result = some r) {t : Term} :
    (SourceUnit.ofFragments config s.fragments).Unfolds r t ↔
      (∃ name, r = signalRef name ∧ (⟨name, none⟩ : InputDecl) ∈ f.inputs ∧ t = .input name) ∨
      ∃ b ∈ f.blocks, ∃ operation operands args,
        b.reading? = some ⟨r, operation, operands⟩ ∧
          List.Forall₂ (SourceUnit.ofFragments config s.fragments).Unfolds operands args ∧
          t = .apply operation args := by
  -- any other fragment with this result would declare the same name
  have hunique : ∀ f' ∈ s.fragments, f'.result = some r → f' = f := fun f' hf' hr' =>
    h.eq_of_mem_declares hf' hf (h.mem_declares_of_result hf' hr') (h.mem_declares_of_result hf hr)
  constructor
  · intro hunfolds
    cases hunfolds with
    | @input name hinput =>
      obtain ⟨f', hf', hinput⟩ := List.mem_flatMap.1 hinput
      obtain ⟨gate, node, names, rfl⟩ := h.exists_gate hf'
      have heq := hunique _ hf' (gate.result_eq_of_scalar config node names hinput).1
      exact .inl ⟨name, rfl, heq ▸ hinput, rfl⟩
    | @apply b _ operation operands args hb hreading hargs =>
      obtain ⟨f', hf', hb⟩ := List.mem_flatMap.1 hb
      obtain ⟨gate, node, names, rfl⟩ := h.exists_gate hf'
      have heq := hunique _ hf' (gate.result_eq_of_reading config node names hb hreading)
      exact .inr ⟨b, heq ▸ hb, operation, operands, args, hreading, hargs, rfl⟩
  · rintro (⟨name, rfl, hinput, rfl⟩ | ⟨b, hb, operation, operands, args, hreading, hargs, rfl⟩)
    · exact .input (List.mem_flatMap.2 ⟨f, hf, hinput⟩)
    · exact .apply (List.mem_flatMap.2 ⟨f, hf, hb⟩) hreading hargs

/-- An input unfolds to itself. -/
theorem Emits.unfolds_input (h : Emits config index vs s) {visibility : Visibility} {name : String}
    (hf : .input visibility name ∈ s.fragments) {t : Term} :
    (SourceUnit.ofFragments config s.fragments).Unfolds (signalRef name) t ↔ t = .input name := by
  rw [h.unfolds_iff hf rfl]
  constructor
  · rintro (⟨name', hname, -, rfl⟩ | ⟨b, hb, -⟩)
    · cases hname
      rfl
    · cases hb
  · rintro rfl
    exact .inl ⟨name, rfl, List.mem_singleton_self _, rfl⟩

/-- The result of a gate that computes something unfolds to its operation. -/
theorem Emits.unfolds_apply (h : Emits config index vs s) {gate : Gate} {node : Node}
    {names : NameTable} (hf : (gate.fragment config node names).1 ∈ s.fragments)
    {operation : Operation} (hoperation : gate.operation? config = some operation) {r : Ref}
    (hr : (gate.fragment config node names).1.result = some r) {t : Term} :
    (SourceUnit.ofFragments config s.fragments).Unfolds r t ↔
      ∃ args, List.Forall₂ (SourceUnit.ofFragments config s.fragments).Unfolds gate.operands args ∧
        t = .apply operation args := by
  obtain ⟨b, r', hblocks, hr', hreading⟩ := gate.exists_reading config node names hoperation
  cases hr.symm.trans hr'
  rw [h.unfolds_iff hf hr]
  constructor
  · rintro (⟨name, -, hinput, -⟩ | ⟨b', hb', operation', operands, args, hreading', hargs, rfl⟩)
    -- a fragment that declares a scalar input has no block
    · rw [(gate.result_eq_of_scalar config node names hinput).2] at hblocks
      cases hblocks
    · rw [hblocks, List.mem_singleton] at hb'
      subst hb'
      cases hreading.symm.trans hreading'
      exact ⟨args, hargs, rfl⟩
  · rintro ⟨args, hargs, rfl⟩
    exact .inr ⟨b, by rw [hblocks]; exact List.mem_singleton_self b, operation, _, args, hreading,
      hargs, rfl⟩

/-- The signal of an output is assigned its value and nothing else. -/
theorem Emits.assigns_iff (h : Emits config index vs s) {name : String} {value : Ref}
    (hf : .output name value ∈ s.fragments) {e : Expr} :
    (SourceUnit.ofFragments config s.fragments).Assigns name e ↔ e = .ref value := by
  constructor
  · intro hline
    rcases List.mem_append.1 hline with hline | hline
    · simp at hline
    · obtain ⟨b, hb, hline⟩ := List.mem_flatMap.1 hline
      obtain ⟨f, hmem, hb⟩ := List.mem_flatMap.1 hb
      obtain ⟨gate, node, names, rfl⟩ := h.exists_gate hmem
      -- the line constrains a name of its own fragment, which is therefore the output's
      have htarget := gate.targets config node names _ (List.mem_flatMap.2 ⟨b, hb, hline⟩)
      have heq := h.eq_of_mem_declares hmem hf htarget (List.mem_singleton_self name)
      rw [heq, Fragment.output, List.mem_singleton] at hb
      subst hb
      simpa [Block.ofStatements] using hline
  · rintro rfl
    have hb : Block.ofStatements none [.constrain (signalRef name) (.ref value)] ∈
        s.fragments.flatMap Fragment.blocks :=
      List.mem_flatMap.2 ⟨_, hf, List.mem_singleton_self _⟩
    refine List.mem_append_right _ (List.mem_flatMap.2 ⟨_, hb, ?_⟩)
    simp [Block.ofStatements]

/-! ## Terms on both sides -/

/-- A reference unfolds to the one term to which a node traces. -/
def Agree (u : SourceUnit) (config : Config) (g : Graph) (signal : Node → String) (r : Ref)
    (node : Node) : Prop :=
  ∃ t, (∀ t', u.Unfolds r t' ↔ t' = t) ∧ ∀ t', g.Traces config signal node t' ↔ t' = t

/-- A list is related to one list only when each of its elements is related to one element only. -/
theorem forall₂_cons_iff_eq {α β : Type} {R : α → β → Prop} {a : α} {b : β} {as : List α}
    {bs : List β} (hhead : ∀ b', R a b' ↔ b' = b)
    (htail : ∀ bs', List.Forall₂ R as bs' ↔ bs' = bs) :
    ∀ bs', List.Forall₂ R (a :: as) bs' ↔ bs' = b :: bs := by
  intro bs'
  rw [List.forall₂_cons_left_iff]
  constructor
  · rintro ⟨b', rest, hb', hrest, rfl⟩
    rw [(hhead b').1 hb', (htail rest).1 hrest]
  · rintro rfl
    exact ⟨b, bs, (hhead b).2 rfl, (htail bs).2 rfl, rfl⟩

/-- When each operand agrees with the one node at its port, the operands unfold to the terms to
which the nodes trace, and there are no other nodes and no other terms. -/
theorem agree_of_forall₂ {u : SourceUnit} {g : Graph} {signal : Node → String} {node : Node}
    {ports : List String} {operands : List Ref}
    (h : List.Forall₂ (fun port r => ∃ source, (∀ source', g.Feeds node port source' ↔
      source' = source) ∧ Agree u config g signal r source) ports operands) :
    ∃ sources args, (∀ sources', List.Forall₂ (g.Feeds node) ports sources' ↔ sources' = sources) ∧
      (∀ args', List.Forall₂ u.Unfolds operands args' ↔ args' = args) ∧
      ∀ args', List.Forall₂ (g.Traces config signal) sources args' ↔ args' = args := by
  induction h with
  | nil => exact ⟨[], [], by simp, by simp, by simp⟩
  | cons hhead _ ih =>
    obtain ⟨source, hfeeds, t, hunfolds, htraces⟩ := hhead
    obtain ⟨sources, args, hsources, hoperands, hargs⟩ := ih
    exact ⟨source :: sources, t :: args, forall₂_cons_iff_eq hfeeds hsources,
      forall₂_cons_iff_eq hunfolds hoperands, forall₂_cons_iff_eq htraces hargs⟩

section

variable {g : Graph} {signal : Node → String} {v : Vertex}

/-- The value at a port of a vertex agrees with the one node that feeds the port, when the results
of all vertices that are wired to it agree with their nodes. -/
theorem exists_source_of_value? (ha : g.index.Accepted config) (hv : v ∈ g.index.owners)
    {u : SourceUnit}
    (hprevious : ∀ w ∈ g.index.incoming v.position, ∃ r,
      s.results.lookup w.source.position = some r ∧ Agree u config g signal r w.source.node)
    {port : String} {r : Ref} (hport : port ∈ v.node.ports.names)
    (hvalue : Emission.value? g.index s.results v port = some r) :
    ∃ source, (∀ source', g.Feeds v.node port source' ↔ source' = source) ∧
      Agree u config g signal r source := by
  obtain ⟨w, hw, rfl, hlookup⟩ := Emission.exists_of_value? hvalue
  obtain ⟨r', hlookup', hagree⟩ := hprevious w hw
  cases hlookup.symm.trans hlookup'
  exact ⟨w.source.node, fun source' => ha.feeds_iff hv hw hport, hagree⟩

/-- The operands of a gate agree with the nodes at its ports, one for each. -/
theorem Gate.Fits.forall₂_sources (hc : config.Accepted) (ha : g.index.Accepted config)
    (hv : v ∈ g.index.owners) {u : SourceUnit} {gate : Gate}
    (hfits : gate.Fits config v.node (Emission.value? g.index s.results v))
    (hprevious : ∀ w ∈ g.index.incoming v.position, ∃ r,
      s.results.lookup w.source.position = some r ∧ Agree u config g signal r w.source.node) :
    List.Forall₂ (fun port r => ∃ source, (∀ source', g.Feeds v.node port source' ↔
      source' = source) ∧ Agree u config g signal r source) v.node.ports.names gate.operands := by
  have hports := (List.forall₂_and_left _ _).2 ⟨fun port hport => hport, hfits.forall₂_values hc⟩
  exact hports.imp fun port r h => exists_source_of_value? ha hv hprevious h.1 h.2

/-- The result of a vertex agrees with its node when those of the vertices that are wired to it do,
and when inputs are known by the signals that are declared for them. -/
theorem Emits.agree_of_previous (h : Emits config g.index vs s) (hc : config.Accepted)
    (ha : g.index.Accepted config) (hv : v ∈ g.index.owners) (hnotOutput : v.node.isOutput = false)
    {f : Fragment} (hf : f ∈ s.fragments) (hholds : s.Holds config g.index v f)
    (hsignal : v.node.isInput = true → ∃ visibility, f = .input visibility (signal v.node))
    (hprevious : ∀ w ∈ g.index.incoming v.position, ∃ r,
      s.results.lookup w.source.position = some r ∧
        Agree (SourceUnit.ofFragments config s.fragments) config g signal r w.source.node) :
    ∃ r, s.results.lookup v.position = some r ∧
      Agree (SourceUnit.ofFragments config s.fragments) config g signal r v.node := by
  obtain ⟨gate, names, hfits, rfl⟩ := hholds.gate
  cases hoperation : v.node.operation? config with
  -- neither an operation nor an output: both sides stop at the signal of the input
  | none =>
    have hinput : v.node.isInput = true := hfits.isOf.isInput hoperation hnotOutput
    obtain ⟨visibility, heq⟩ := hsignal hinput
    rw [heq] at hf
    have hresult := hholds.result
    rw [heq] at hresult
    refine ⟨signalRef (signal v.node), hresult, .input (signal v.node), fun t' => ?_, fun t' => ?_⟩
    · exact h.unfolds_input hf
    · constructor
      · intro htraces
        cases htraces with
        | input _ => rfl
        | apply hoperation' _ _ => cases hoperation.symm.trans hoperation'
      · rintro rfl
        exact .input hinput
  -- both sides go on with the operation, and what they go on to agrees by assumption
  | some operation =>
    obtain ⟨sources, args, hsources, hoperands, hargs⟩ :=
      agree_of_forall₂ (hfits.forall₂_sources hc ha hv hprevious)
    have hgate : gate.operation? config = some operation :=
      hfits.isOf.operation?_eq.symm.trans hoperation
    obtain ⟨-, r, -, hr, -⟩ := gate.exists_reading config v.node names hgate
    refine ⟨r, hholds.result.trans hr, .apply operation args, fun t' => ?_, fun t' => ?_⟩
    · rw [h.unfolds_apply hf hgate hr]
      constructor
      · rintro ⟨args', hargs', rfl⟩
        rw [(hoperands args').1 hargs']
      · rintro rfl
        exact ⟨args, (hoperands args).2 rfl, rfl⟩
    · constructor
      · intro htraces
        cases htraces with
        | input hinput => cases hoperation.symm.trans (Node.operation?_of_isInput hinput)
        | apply hoperation' hsources' hargs' =>
          cases hoperation.symm.trans hoperation'
          cases (hsources _).1 hsources'
          rw [(hargs _).1 hargs']
      · rintro rfl
        exact .apply hoperation ((hsources sources).2 rfl) ((hargs args).2 rfl)

/-- Along an order all results agree with their nodes. -/
theorem Emits.agree (h : Emits config g.index vs s) (signal : Node → String) (hc : config.Accepted)
    (ha : g.index.Accepted config) (ho : g.index.Orders vs) {fragment : Node → Fragment}
    (hfragments : s.fragments = vs.map fun v => fragment v.node)
    (hholds : ∀ v ∈ vs, s.Holds config g.index v (fragment v.node))
    (hsignal : ∀ v ∈ vs, v.node.isInput = true →
      ∃ visibility, fragment v.node = .input visibility (signal v.node)) :
    ∀ v ∈ vs, v.node.isOutput = false → ∃ r, s.results.lookup v.position = some r ∧
      Agree (SourceUnit.ofFragments config s.fragments) config g signal r v.node := by
  -- the sources of a vertex are listed before it, so the induction is on a prefix of the order
  suffices hprefix : ∀ before after, vs = before ++ after → ∀ v ∈ before,
      v.node.isOutput = false → ∃ r, s.results.lookup v.position = some r ∧
        Agree (SourceUnit.ofFragments config s.fragments) config g signal r v.node from
    hprefix vs [] (List.append_nil vs).symm
  intro before
  induction before using List.reverseRecOn with
  | nil => exact fun _ _ => nofun
  | append_singleton before x ih =>
    intro after hvs v hv hnotOutput
    rw [List.append_assoc, List.singleton_append] at hvs
    rcases List.mem_append.1 hv with hv | hv
    · exact ih (x :: after) hvs v hv hnotOutput
    · obtain rfl := List.mem_singleton.1 hv
      have hmem : v ∈ vs := by simp [hvs]
      have hf : fragment v.node ∈ s.fragments := by
        rw [hfragments]
        exact List.mem_map_of_mem hmem
      refine h.agree_of_previous hc ha (ho.owners v hmem) hnotOutput hf (hholds v hmem)
        (hsignal v hmem) fun w hw => ?_
      have hsource := g.index_sound.source_port w (Index.mem_incoming.1 hw).1
      rw [Node.hasOutputPort, Bool.not_eq_true'] at hsource
      exact ih (v :: after) hvs w.source (ho.sources_before before v after hvs w hw) hsource

end

/-! ## Signals -/

/-- The name of the signal that the fragment of an input or an output declares. -/
def Fragment.signal (f : Fragment) : String := (f.inputs.map InputDecl.name ++ f.outputs).headD ""

/-- An input and an output declare one signal each, and nothing else declares any. -/
theorem Emission.Holds.signal_eq {v : Vertex} {f : Fragment} (h : s.Holds config index v f) :
    ((f.inputs.filter fun d => d.size.isNone).map InputDecl.name =
      if v.node.isInput then [f.signal] else []) ∧
    (f.outputs = if v.node.isOutput then [f.signal] else []) ∧
    (v.node.isInput = true → ∃ visibility, f = .input visibility f.signal) ∧
    (v.node.isOutput = true → ∃ value, f = .output f.signal value ∧
      value? index s.results v "in" = some value) := by
  obtain ⟨gate, names, hfits, rfl⟩ := h.gate
  have hisOf := hfits.isOf
  unfold Node.isInput Node.isOutput
  cases gate with
  | input visibility label =>
    rw [show v.node.kind = .input visibility label from hisOf]
    exact ⟨rfl, rfl, fun _ => ⟨visibility, rfl⟩, nofun⟩
  | output label value =>
    obtain ⟨type, hkind⟩ := hisOf
    rw [hkind]
    exact ⟨rfl, rfl, nofun, fun _ => ⟨value, rfl, List.head_eq_of_cons_eq hfits.values⟩⟩
  | operation operator a b =>
    rw [show v.node.kind = .operation operator from hisOf]
    exact ⟨rfl, rfl, nofun, nofun⟩
  | _ =>
    obtain ⟨gadget, params, setting, hkind, -, -⟩ := hisOf
    rw [hkind]
    exact ⟨rfl, rfl, nofun, nofun⟩

/-- Lists of at most one element each are together the elements of those that have one. -/
theorem flatMap_eq_map_filter {α β : Type} {l : List α} {f : α → List β} {p : α → Bool} {e : α → β}
    (h : ∀ a ∈ l, f a = if p a then [e a] else []) : l.flatMap f = (l.filter p).map e := by
  induction l with
  | nil => rfl
  | cons a l ih =>
    rw [List.flatMap_cons, h a List.mem_cons_self, ih fun b hb => h b (List.mem_cons_of_mem _ hb)]
    cases hp : p a with
    | true => simp [hp]
    | false => simp [hp]

/-! ## The whole compilation -/

/-- No node of an accepted graph stands twice in an order. -/
theorem nodup_nodes_of_orders {g : Graph} (ha : g.index.Accepted config)
    (ho : g.index.Orders vs) : (vs.map Vertex.node).Nodup :=
  ho.nodup_nodes fun _ hv _ hu => ha.eq_of_id_eq hv hu

/-- Along an order the emitted unit computes what the nodes say. -/
theorem Emits.renders {g : Graph} (h : Emits config g.index vs s) (hc : config.Accepted)
    (ha : g.index.Accepted config) (ho : g.index.Orders vs)
    (houtputs : ∀ v ∈ g.index.outputs, v ∈ vs) :
    ∃ signal, (SourceUnit.ofFragments config s.fragments).Renders config g (vs.map Vertex.node)
      signal := by
  have hnodes := nodup_nodes_of_orders ha ho
  obtain ⟨fragment, hfragments, hholds⟩ := h.exists_fragments g.index_sound ho hnodes
  let signal (node : Node) : String := (fragment node).signal
  have hagree := h.agree signal hc ha ho hfragments hholds fun v hv =>
    (hholds v hv).signal_eq.2.2.1
  refine ⟨signal, ?_, ?_, ?_⟩
  · simp only [SourceUnit.scalarInputs, SourceUnit.ofFragments, hfragments, List.flatMap_map,
      List.filter_flatMap, List.map_flatMap, List.filter_map, List.map_map]
    exact flatMap_eq_map_filter fun v hv => (hholds v hv).signal_eq.1
  · simp only [SourceUnit.ofFragments, hfragments, List.flatMap_map, List.filter_map, List.map_map]
    exact flatMap_eq_map_filter fun v hv => (hholds v hv).signal_eq.2.1
  · intro output hmem houtput
    obtain ⟨v, hv, rfl⟩ := g.exists_vertex hmem
    have howner : v ∈ g.index.owners := List.mem_filter.2 ⟨hv, by rw [ha.unique v hv]; rfl⟩
    have hv : v ∈ vs := houtputs v (List.mem_filter.2 ⟨howner, houtput⟩)
    obtain ⟨value, hfragment, hvalue⟩ := (hholds v hv).signal_eq.2.2.2 houtput
    have hf : .output (signal v.node) value ∈ s.fragments := by
      rw [← hfragment, hfragments]
      exact List.mem_map_of_mem hv
    -- what is wired to the output has been emitted before it
    have hprevious : ∀ w ∈ g.index.incoming v.position, ∃ r,
        s.results.lookup w.source.position = some r ∧
          Agree (SourceUnit.ofFragments config s.fragments) config g signal r w.source.node := by
      intro w hw
      obtain ⟨before, after, hvs⟩ := List.append_of_mem hv
      have hsource : w.source ∈ vs := by
        rw [hvs]
        exact List.mem_append_left _ (ho.sources_before before v after hvs w hw)
      have hport := g.index_sound.source_port w (Index.mem_incoming.1 hw).1
      rw [Node.hasOutputPort, Bool.not_eq_true'] at hport
      exact hagree w.source hsource hport
    -- the output takes over the term of its only source
    obtain ⟨source, hfeeds, t, hunfolds, htraces⟩ :=
      exists_source_of_value? ha howner hprevious (Node.mem_ports_of_isOutput houtput) hvalue
    refine ⟨value, t, fun e => h.assigns_iff hf, hunfolds, fun t' => ?_⟩
    constructor
    · rintro ⟨source', hsource', ht'⟩
      rw [(hfeeds source').1 hsource'] at ht'
      exact (htraces t').1 ht'
    · rintro rfl
      exact ⟨source, (hfeeds source).2 rfl, (htraces t').2 rfl⟩

/-- A compilation that is not blocked preserves the dataflow: its code is the text of a unit that is
read back from the text and computes, for every output of the graph, the term which the edges of the
graph say. -/
theorem compile_renders (config : Config) (hc : config.check = .ok ()) (g : Graph)
    (h : hasFatal (g.validate config) = false) :
    ∃ order u signal, g.linearize = .ok order ∧ emitUnit config order.pruned = .ok u ∧
      (g.compile config).code = u.text ∧ u.body.map Line.text = u.bodyLines ∧ u.ReadsBack ∧
      u.Renders config g (order.pruned.vertices.map Vertex.node) signal := by
  have hc := Config.accepted_of_check hc
  have ha := Validation.accepted_of_hasFatal g.index_sound h
  obtain ⟨u, ⟨order, horder, hu⟩, htext⟩ := Graph.exists_unit hc h
  obtain ⟨s, hs, rfl⟩ := emitUnit_eq_ok.1 hu
  obtain ⟨hindex, hperm, hordered⟩ := Index.linearize_spec g.index_sound horder
  have hvertices : order.pruned.vertices =
      order.vertices.filter fun v => g.index.useful.contains v.position := by
    rw [LinearOrder.pruned, hindex]
  have hemits : Emits config g.index order.pruned.vertices s := by
    simpa only [LinearOrder.pruned, hindex] using hs
  have hpruned : g.index.Orders order.pruned.vertices := by
    rw [hvertices]
    exact hordered.pruned g.index_sound
  have houtputs : ∀ v ∈ g.index.outputs, v ∈ order.pruned.vertices := by
    intro v hv
    have hvertex := Index.mem_vertices_of_mem_owners (List.mem_filter.1 hv).1
    rw [hvertices, List.mem_filter]
    exact ⟨hperm.mem_iff.2 hvertex, by simpa using Index.position_mem_useful_of_mem_outputs hv⟩
  obtain ⟨signal, hrenders⟩ := hemits.renders hc ha hpruned houtputs
  exact ⟨order, _, signal, horder, hu, htext, SourceUnit.map_text_body _, hs.readsBack, hrenders⟩

/-- The gallery's range check has no fatal diagnostic. -/
theorem compile_renders_rangeVerification :
    let g := Exhibit.rangeVerification.graph
    ({} : Config).check = .ok () ∧ hasFatal (g.validate {}) = false ∧
      ∃ order u signal, g.linearize = .ok order ∧ emitUnit {} order.pruned = .ok u ∧
        (g.compile {}).code = u.text ∧ u.body.map Line.text = u.bodyLines ∧ u.ReadsBack ∧
        u.Renders {} g (order.pruned.vertices.map Vertex.node) signal := by
  have hfatal : hasFatal (Exhibit.rangeVerification.graph.validate {}) = false :=
    Exhibit.hasFatal_rangeVerification rfl
  exact ⟨rfl, hfatal, compile_renders {} rfl Exhibit.rangeVerification.graph hfatal⟩

end CircuitGraph.Circom
