import CircuitGraph.Proofs.Circom.Opening
import CircuitGraph.Proofs.Compile.Dataflow
import CircuitGraph.Proofs.Compile.WellFormed
import CircuitGraph.Proofs.Graph.Restrict

/-!
# The interface of a circuit

The inputs and outputs of an emitted circuit are those of the graph, and what is public in the graph
is public in the circuit. `SourceUnit.Exposes` says it of the text: it is about the lines that begin
with the words of a declaration or an assignment, and about the line of the main component. The
lines that include files are left out, because they hold a path of the configuration, with whatever
is written there.

Which lines begin with these words is known from `Line.begins_words_iff`. The rest is about the four
lists that the fragments of an emission fill. For each vertex, `Emission.Holds.interface_eq` says
what its fragment adds to them.
-/

namespace CircuitGraph

open CircuitGraph.Circom CircuitGraph.Text CircuitGraph.Validation

/-- Whether the node supplies a value that is part of the public statement. -/
def Node.isPublic (node : Node) : Bool :=
  match node.kind with
  | .input .exposed _ => true
  | _ => false

/-- What a node declares as inputs: an input declares one signal under the given name, and a Merkle
proof two arrays of the depth of its tree. -/
def Node.DeclaresInputs (config : Config) (node : Node) (name : String)
    (inputs : List InputDecl) : Prop :=
  match node.kind with
  | .input _ _ => inputs = [⟨name, none⟩]
  | .gadget .merkleProof params => ∃ depth elements indices,
      Gadget.merkleProof.resolve config params = .ok (.merkleProof depth) ∧
        inputs = [⟨elements, some depth⟩, ⟨indices, some depth⟩]
  | _ => inputs = []

/-- A public input declares one signal. -/
theorem Node.DeclaresInputs.eq_of_isPublic {config : Config} {node : Node} {name : String}
    {inputs : List InputDecl} (h : node.DeclaresInputs config name inputs)
    (hpublic : node.isPublic = true) : inputs = [⟨name, none⟩] := by
  unfold Node.isPublic at hpublic
  unfold Node.DeclaresInputs at h
  split at hpublic
  · rename_i hkind
    rwa [hkind] at h
  · cases hpublic

namespace LinearOrder

/-- The nodes that are kept, in order. -/
def keptNodes (order : LinearOrder) : List Node := order.pruned.vertices.map Vertex.node

/-- The names of the public inputs that are kept, in order. -/
def publicNames (order : LinearOrder) (signal : Node → String) : List String :=
  (order.keptNodes.filter Node.isPublic).map signal

end LinearOrder

namespace Circom

/-- The lines behind those that include files. -/
def SourceUnit.tailLines (u : SourceUnit) : List String :=
  u.templateLine :: u.bodyLines ++ ["\x7d", "", u.mainLine]

/-- The interface of a unit is that of the graph, in the order of its nodes. -/
structure SourceUnit.Exposes (u : SourceUnit) (config : Config) (g : Graph) (order : LinearOrder)
    (signal : Node → String) (inputs : Node → List InputDecl) : Prop where
  /-- The order lists the nodes of the graph. -/
  order_perm : (order.vertices.map Vertex.node).Perm g.nodes
  /-- The nodes are kept from which an output can be reached. -/
  mem_kept_iff : ∀ node ∈ g.nodes, node ∈ order.keptNodes ↔ g.LeadsToOutput node.id
  /-- The kept nodes stay in order. -/
  kept_sublist : order.keptNodes.Sublist (order.vertices.map Vertex.node)
  /-- The text is made of the lines up to the included files and those behind them. -/
  text_eq : u.text = joinLines u.headLines ++ joinLines u.tailLines
  /-- The lines behind those of the included files can be read off their text. -/
  splitLines_eq : splitLines (joinLines u.tailLines) = u.tailLines ++ [""]
  /-- A kept node declares what a node of its kind declares. -/
  declares : ∀ node ∈ order.keptNodes, node.DeclaresInputs config (signal node) (inputs node)
  /-- The inputs are declared by the kept nodes, in order. -/
  input_lines : u.tailLines.filter (begins "signal input ") =
    (order.keptNodes.flatMap inputs).map fun d => indent ++ d.text
  /-- The outputs are declared by all output nodes of the graph, in order. -/
  output_lines : u.tailLines.filter (begins "signal output ") =
    ((order.vertices.map Vertex.node).filter Node.isOutput).map fun node =>
      indent ++ s!"signal output {signal node};"
  /-- One line assigns a value to the signal of an output. -/
  assigned : ∀ node ∈ g.nodes, node.isOutput = true → ∃ value : Ref,
    u.tailLines.filter (begins s!"{signal node} <== ") =
      [indent ++ s!"{signal node} <== {value.text};"]
  /-- No name is declared twice. -/
  nodup_names : ((order.keptNodes.flatMap inputs).map InputDecl.name ++
    ((order.vertices.map Vertex.node).filter Node.isOutput).map signal).Nodup
  /-- The names of the public inputs are listed, if there are any. -/
  listed : order.publicNames signal ≠ [] →
    let names := ", ".intercalate (order.publicNames signal)
    u.tailLines.filter (startsWith "component main") =
      [s!"component main \x7bpublic [{names}]\x7d = {config.templateName}();"]
  /-- There is no list when there are none. -/
  unlisted : order.publicNames signal = [] →
    u.tailLines.filter (startsWith "component main") =
      [s!"component main = {config.templateName}();"]
  /-- There are some when an output can be reached from a public input. -/
  publicNames_ne_nil_iff : order.publicNames signal ≠ [] ↔
    ∃ node ∈ g.nodes, node.isPublic = true ∧ g.LeadsToOutput node.id
  /-- No name is listed twice. -/
  nodup_publicNames : (order.publicNames signal).Nodup
  /-- The names can be told apart in the list. -/
  isIdentifier_publicNames : ∀ name ∈ order.publicNames signal, isIdentifier name = true
  /-- What another node than a public input declares is not listed. -/
  isPublic_of_listed : ∀ node ∈ order.keptNodes, ∀ d ∈ inputs node,
    d.name ∈ order.publicNames signal → node.isPublic = true

/-! ## Lines of a unit -/

namespace SourceUnit

variable (u : SourceUnit)

/-- The lines up to the included files are followed by the others. -/
theorem lines_eq_append : u.lines = u.headLines ++ u.tailLines := by
  rw [lines, tailLines, List.cons_append, List.append_assoc]
  rfl

/-- The text is made of the lines up to the included files and those behind them. -/
theorem text_eq_append : u.text = joinLines u.headLines ++ joinLines u.tailLines := by
  rw [text, lines_eq_append, joinLines, List.map_append, String.join_append]
  rfl

/-- The lines behind the included files are read back. -/
theorem splitLines_tailLines (htemplate : isIdentifier u.template = true)
    (hbody : ∀ line ∈ u.body, line.IsPlain)
    (hpublics : ∀ name ∈ u.publics, isIdentifier name = true) :
    splitLines (joinLines u.tailLines) = u.tailLines ++ [""] := by
  refine splitLines_joinLines fun line hline => ?_
  rw [tailLines, ← map_text_body] at hline
  exact isOneLine_template htemplate hbody hpublics line hline

/-- The main component is made behind the included files. -/
theorem filter_main_tailLines :
    u.tailLines.filter (startsWith "component main") = [u.mainLine] := by
  have hhead : u.headLines.filter (startsWith "component main") = [] := by
    refine filter_startsWith_eq_nil (by decide) fun line hline heq => ?_
    have hwords : "component main".toList.head? = some 'c' := rfl
    rw [hwords] at heq
    rcases u.head?_headLines hline with h | h | h
    · simp [h] at heq
    · simp [h] at heq
    · simp [h] at heq
  have hall := u.filter_main
  rwa [lines_eq_append, List.filter_append, hhead, List.nil_append] at hall

/-- The main component lists the public inputs, if there are any. -/
theorem filter_main_of_ne_nil (h : u.publics ≠ []) :
    let names := ", ".intercalate u.publics
    u.tailLines.filter (startsWith "component main") =
      [s!"component main \x7bpublic [{names}]\x7d = {u.template}();"] := by
  rw [filter_main_tailLines, mainLine, List.isEmpty_eq_false_iff.2 h]
  rfl

/-- The main component has no list when there are none. -/
theorem filter_main_of_eq_nil (h : u.publics = []) :
    u.tailLines.filter (startsWith "component main") = [s!"component main = {u.template}();"] := by
  rw [filter_main_tailLines, mainLine, h]
  rfl

variable {u}

/-- Behind the included files, the lines that begin with the words of a kind are those lines of the
body which are of this kind. -/
theorem filter_begins_tailLines
    (hnames : ∀ line ∈ u.body, ∀ n ∈ line.declares ++ line.mentions, isIdentifier n = true)
    (lead : Lead) (hlead : isIdentifier lead.word = true)
    (htemplate : lead.word ≠ "template") (hcomponent : lead.word ≠ "component") :
    u.tailLines.filter (begins lead.words) =
      (u.body.filter fun line => line.lead? = some lead).map Line.text := by
  have hbody : (u.body.map Line.text).filter (begins lead.words) =
      (u.body.filter fun line => line.lead? = some lead).map Line.text := by
    rw [List.filter_map]
    refine congrArg _ (List.filter_congr fun line hline => ?_)
    rw [Bool.eq_iff_iff, Function.comp_apply, Line.begins_words_iff (hnames line hline) hlead,
      decide_eq_true_iff]
  have hopening : ¬ begins lead.words u.templateLine = true := by
    have htext : u.templateLine.toList =
        "template".toList ++ ' ' :: (u.template ++ "() \x7b").toList := by
      simp [templateLine, toString]
    exact not_begins_of_ne (by decide) htext hlead htemplate
  have hclosing : ¬ begins lead.words "\x7d" = true :=
    not_begins_sign rfl (by decide) (by decide) hlead
  have hmain : ¬ begins lead.words u.mainLine = true := by
    obtain ⟨rest, hrest⟩ := u.exists_mainLine
    have htext : u.mainLine.toList = "component".toList ++ ' ' :: ("main" ++ rest).toList := by
      simp [hrest]
    exact not_begins_of_ne (by decide) htext hlead hcomponent
  rw [tailLines, ← map_text_body, List.cons_append, List.filter_cons_of_neg hopening,
    List.filter_append, hbody, List.filter_cons_of_neg hclosing,
    List.filter_cons_of_neg (not_begins_blank hlead), List.filter_cons_of_neg hmain,
    List.filter_nil, List.append_nil]

end SourceUnit

/-- A statement is no declaration of an input or an output. -/
theorem Statement.lead?_ne (s : Statement) : s.lead? ≠ some .input ∧ s.lead? ≠ some .output := by
  unfold lead?
  split <;> exact ⟨nofun, nofun⟩

/-- No line of a block declares an input or an output. -/
theorem Block.lead?_ne {b : Block} {line : Line} (h : line ∈ b.body) :
    line.lead? ≠ some .input ∧ line.lead? ≠ some .output := by
  rcases List.mem_append.1 h with h | h
  · rcases List.mem_cons.1 h with rfl | h
    · exact ⟨nofun, nofun⟩
    · obtain ⟨heading, -, rfl⟩ : ∃ heading, b.heading = some heading ∧ .heading heading = line := by
        simpa using h
      exact ⟨nofun, nofun⟩
  · obtain ⟨c, -, hc⟩ := List.mem_flatMap.1 h
    cases c with
    | single s =>
      rw [List.mem_singleton.1 hc]
      exact s.lead?_ne
    | loop count statements =>
      simp only [Command.body, List.cons_append, List.mem_cons, List.mem_append, List.mem_map,
        List.not_mem_nil, or_false] at hc
      obtain rfl | ⟨s, -, rfl⟩ | rfl := hc
      · exact ⟨nofun, nofun⟩
      · exact s.lead?_ne
      · exact ⟨nofun, nofun⟩

namespace SourceUnit

/-- The lines of a body that declare inputs. -/
theorem filter_input_body (u : SourceUnit) :
    (u.body.filter fun line => line.lead? = some .input) = u.inputs.map .input := by
  have hinputs : (u.inputs.map Line.input).filter (fun line => line.lead? = some .input) =
      u.inputs.map .input := List.filter_eq_self.2 (by simp [Line.lead?])
  have houtputs : (u.outputs.map Line.output).filter (fun line => line.lead? = some .input) = [] :=
    List.filter_eq_nil_iff.2 (by simp [Line.lead?])
  have hblocks : (u.blocks.flatMap Block.body).filter (fun line => line.lead? = some .input) =
      [] := by
    refine List.filter_eq_nil_iff.2 fun line hline => ?_
    obtain ⟨b, -, hb⟩ := List.mem_flatMap.1 hline
    simpa using (Block.lead?_ne hb).1
  rw [body, List.filter_append, List.filter_append, hinputs, houtputs, hblocks, List.append_nil,
    List.append_nil]

/-- The lines of a body that declare outputs. -/
theorem filter_output_body (u : SourceUnit) :
    (u.body.filter fun line => line.lead? = some .output) = u.outputs.map .output := by
  have hinputs : (u.inputs.map Line.input).filter (fun line => line.lead? = some .output) = [] :=
    List.filter_eq_nil_iff.2 (by simp [Line.lead?])
  have houtputs : (u.outputs.map Line.output).filter (fun line => line.lead? = some .output) =
      u.outputs.map .output := List.filter_eq_self.2 (by simp [Line.lead?])
  have hblocks : (u.blocks.flatMap Block.body).filter (fun line => line.lead? = some .output) =
      [] := by
    refine List.filter_eq_nil_iff.2 fun line hline => ?_
    obtain ⟨b, -, hb⟩ := List.mem_flatMap.1 hline
    simpa using (Block.lead?_ne hb).2
  rw [body, List.filter_append, List.filter_append, hinputs, houtputs, hblocks, List.nil_append,
    List.append_nil]

end SourceUnit

/-! ## Lines of an emission -/

/-- The signal that a line assigns a value to is one of the names that the line may target. -/
theorem Line.mem_of_targets {line : Line} {name : String} {names : List String}
    (h : line.lead? = some (.assigns name)) (htargets : line.Targets names) : name ∈ names := by
  cases line with
  | statement inLoop s =>
    have hlead : s.lead? = some (.assigns name) := h
    unfold Statement.lead? at hlead
    split at hlead
    · cases hlead
      exact htargets
    · cases hlead
  | _ => cases h

variable {config : Config} {index : Index} {vs : List Vertex} {s : Emission}

/-- Every name in a line of an emitted body is an identifier. -/
theorem Emits.isIdentifier_names (h : Emits config index vs s) :
    ∀ line ∈ (SourceUnit.ofFragments config s.fragments).body,
      ∀ n ∈ line.declares ++ line.mentions, isIdentifier n = true := by
  intro line hline n hn
  have hscoped := h.wellScoped
  have hdeclares (hn : n ∈ line.declares) : isIdentifier n = true :=
    hscoped.identifier n (List.mem_flatMap.2 ⟨line, hline, hn⟩)
  rcases List.mem_append.1 hn with hn | hn
  · exact hdeclares hn
  · -- what is mentioned has been declared
    obtain ⟨before, after, hbody⟩ := List.append_of_mem hline
    rcases hscoped.mentioned before line after hbody n hn with hn | hn
    · refine hscoped.identifier n ?_
      rw [hbody, declared_append]
      exact List.mem_append_left _ hn
    · exact hdeclares hn

/-- One line of an emitted body assigns a value to the signal of an output. -/
theorem Emits.filter_assigns_body (h : Emits config index vs s) {name : String} {value : Ref}
    (hf : .output name value ∈ s.fragments) :
    ((SourceUnit.ofFragments config s.fragments).body.filter fun line =>
        line.lead? = some (.assigns name)) =
      [.statement false (.constrain (signalRef name) (.ref value))] := by
  obtain ⟨before, after, hsplit⟩ := List.append_of_mem hf
  -- the names of the fragments are distinct altogether, so no other one declares this name
  have hother : ∀ f ∈ before ++ after, name ∉ f.declares := by
    intro f hmem hname
    have hnodup := h.tracked.grants.nodup
    rw [hsplit, (List.perm_middle.flatMap_right _).nodup_iff, List.flatMap_cons,
      List.nodup_append'] at hnodup
    exact hnodup.2.2 (List.mem_singleton_self name) (List.mem_flatMap.2 ⟨f, hmem, hname⟩)
  have hnil : ∀ f ∈ before ++ after, ((f.blocks.flatMap Block.body).filter fun line =>
      line.lead? = some (.assigns name)) = [] := by
    intro f hmem
    have hfragment : f ∈ s.fragments := by
      rw [hsplit]
      exact List.perm_middle.mem_iff.2 (List.mem_cons_of_mem _ hmem)
    obtain ⟨gate, node, names, rfl⟩ := h.exists_gate hfragment
    refine List.filter_eq_nil_iff.2 fun line hline hlead => hother _ hmem ?_
    exact Line.mem_of_targets (of_decide_eq_true hlead) (gate.targets config node names line hline)
  have hfront : ((SourceUnit.ofFragments config s.fragments).inputs.map Line.input ++
      (SourceUnit.ofFragments config s.fragments).outputs.map Line.output).filter (fun line =>
        line.lead? = some (.assigns name)) = [] := by
    refine List.filter_eq_nil_iff.2 fun line hline => ?_
    rcases List.mem_append.1 hline with hline | hline
    · obtain ⟨d, -, rfl⟩ := List.mem_map.1 hline
      simp [Line.lead?]
    · obtain ⟨other, -, rfl⟩ := List.mem_map.1 hline
      simp [Line.lead?]
  have hblocks : (SourceUnit.ofFragments config s.fragments).blocks.flatMap Block.body =
      s.fragments.flatMap fun f => f.blocks.flatMap Block.body := List.flatMap_assoc
  have hbefore := List.flatMap_eq_nil_iff.2 fun f hf => hnil f (List.mem_append_left after hf)
  have hafter := List.flatMap_eq_nil_iff.2 fun f hf => hnil f (List.mem_append_right before hf)
  rw [SourceUnit.body, List.filter_append, hfront, List.nil_append, hblocks, List.filter_flatMap,
    hsplit, List.flatMap_append, List.flatMap_cons, hbefore, hafter]
  simp [Fragment.output, Block.ofStatements, Line.lead?, Statement.lead?, signalRef]

/-! ## What a vertex adds to the interface -/

/-- The inputs and the public inputs of a fragment are those of its node. -/
theorem Emission.Holds.interface_eq {v : Vertex} {f : Fragment} (h : s.Holds config index v f) :
    v.node.DeclaresInputs config f.signal f.inputs ∧
      f.publics = if v.node.isPublic then [f.signal] else [] := by
  obtain ⟨gate, names, hfits, rfl⟩ := h.gate
  have hisOf := hfits.isOf
  unfold Node.DeclaresInputs Node.isPublic
  cases gate with
  | input visibility label =>
    rw [show v.node.kind = .input visibility label from hisOf]
    cases visibility with
    | _ => exact ⟨rfl, rfl⟩
  | output label value =>
    obtain ⟨type, hkind⟩ := hisOf
    rw [hkind]
    exact ⟨rfl, rfl⟩
  | operation operator a b =>
    rw [show v.node.kind = .operation operator from hisOf]
    exact ⟨rfl, rfl⟩
  | merkleProof depth leaf root =>
    obtain ⟨gadget, params, setting, hkind, hresolve, hsetting⟩ := hisOf
    cases hsetting
    rw [hkind]
    obtain rfl := Gadget.eq_of_admits (Gadget.admits_of_resolve hresolve)
    exact ⟨⟨_, _, _, hresolve, rfl⟩, rfl⟩
  | _ =>
    obtain ⟨gadget, params, setting, hkind, hresolve, hsetting⟩ := hisOf
    cases hsetting
    rw [hkind]
    obtain rfl := Gadget.eq_of_admits (Gadget.admits_of_resolve hresolve)
    exact ⟨rfl, rfl⟩

/-- The four lists of a unit say what the nodes declare. -/
structure Emission.Interface (config : Config) (s : Emission) (nodes : List Node)
    (signal : Node → String) (inputs : Node → List InputDecl) : Prop where
  /-- A node declares what a node of its kind declares. -/
  declares : ∀ node ∈ nodes, node.DeclaresInputs config (signal node) (inputs node)
  /-- The inputs of the unit are declared by the nodes. -/
  inputs_eq : s.fragments.flatMap Fragment.inputs = nodes.flatMap inputs
  /-- The outputs of the unit are those of the output nodes. -/
  outputs_eq : s.fragments.flatMap Fragment.outputs = (nodes.filter Node.isOutput).map signal
  /-- The public inputs of the unit are those of the public input nodes. -/
  publics_eq : s.fragments.flatMap Fragment.publics = (nodes.filter Node.isPublic).map signal
  /-- The fragment of an output node constrains its signal to a value. -/
  output_mem : ∀ node ∈ nodes, node.isOutput = true →
    ∃ value, .output (signal node) value ∈ s.fragments

/-- A public input declares the signal that is listed. -/
theorem Emission.Interface.mem_inputs_of_isPublic {config : Config} {s : Emission}
    {nodes : List Node} {signal : Node → String} {inputs : Node → List InputDecl}
    (h : s.Interface config nodes signal inputs) {node : Node} (hnode : node ∈ nodes)
    (hpublic : node.isPublic = true) : (⟨signal node, none⟩ : InputDecl) ∈ inputs node := by
  rw [(h.declares node hnode).eq_of_isPublic hpublic]
  exact List.mem_singleton_self _

/-- Along an order the lists of the unit say what the nodes declare. -/
theorem Emits.exists_interface {g : Graph} {s : Emission} (h : Emits config g.index vs s)
    (ha : g.index.Accepted config) (ho : g.index.Orders vs) :
    ∃ signal inputs, s.Interface config (vs.map Vertex.node) signal inputs := by
  have hnodes := nodup_nodes_of_orders ha ho
  obtain ⟨fragment, hfragments, hholds⟩ := h.exists_fragments g.index_sound ho hnodes
  refine ⟨fun node => (fragment node).signal, fun node => (fragment node).inputs, ?_⟩
  exact
    { declares := List.forall_mem_map.2 fun v hv => (hholds v hv).interface_eq.1
      inputs_eq := by rw [hfragments, List.flatMap_map, List.flatMap_map]
      outputs_eq := by
        simp only [hfragments, List.flatMap_map, List.filter_map, List.map_map]
        exact flatMap_eq_map_filter fun v hv => (hholds v hv).signal_eq.2.1
      publics_eq := by
        simp only [hfragments, List.flatMap_map, List.filter_map, List.map_map]
        exact flatMap_eq_map_filter fun v hv => (hholds v hv).interface_eq.2
      output_mem := List.forall_mem_map.2 fun v hv houtput => by
        obtain ⟨value, hfragment, -⟩ := (hholds v hv).signal_eq.2.2.2 houtput
        exact ⟨value, hfragment ▸ hfragments ▸ List.mem_map_of_mem hv⟩ }

end Circom

/-! ## What is kept of an order -/

namespace Graph

variable {config : Config} {g : Graph} {order : LinearOrder}

/-- The nodes are kept from which an output can be reached. -/
theorem mem_keptNodes_iff (ha : g.index.Accepted config) (horder : g.linearize = .ok order)
    {node : Node} (hnode : node ∈ g.nodes) :
    node ∈ order.keptNodes ↔ g.LeadsToOutput node.id := by
  have hids := nodup_ids_of_accepted ha
  have howners := Index.perm_owners_of_linearize horder
  obtain ⟨hindex, -⟩ := Index.linearize_spec g.index_sound horder
  obtain ⟨v, hv, rfl⟩ := exists_owner_of_nodup hids hnode
  rw [← isUseful_iff_leadsToOutput ha.links, show v.node.id = v.id from rfl, isUseful_iff hids hv,
    ← hindex, LinearOrder.keptNodes, LinearOrder.pruned, List.mem_map]
  constructor
  · rintro ⟨u, hu, hnode⟩
    obtain ⟨hmem, huseful⟩ := List.mem_filter.1 hu
    rw [← eq_of_mem_owners (howners.mem_iff.1 hmem) hv (congrArg Node.id hnode)]
    exact List.contains_iff_mem.1 huseful
  · intro huseful
    exact ⟨v, List.mem_filter.2 ⟨howners.mem_iff.2 hv, List.contains_iff_mem.2 huseful⟩, rfl⟩

/-- The order of a graph lists its nodes. -/
theorem perm_nodes_of_linearize (horder : g.linearize = .ok order) :
    (order.vertices.map Vertex.node).Perm g.nodes := by
  obtain ⟨-, hperm, -⟩ := Index.linearize_spec g.index_sound horder
  have hnodes := hperm.map Vertex.node
  rwa [show g.index.vertices.map Vertex.node = g.nodes from g.map_node_vertices] at hnodes

/-- What is kept are nodes of the graph. -/
theorem mem_of_mem_keptNodes (horder : g.linearize = .ok order) {node : Node}
    (hnode : node ∈ order.keptNodes) : node ∈ g.nodes :=
  (perm_nodes_of_linearize horder).subset ((List.filter_sublist.map Vertex.node).subset hnode)

/-- Public inputs are listed when an output can be reached from one of them. -/
theorem publicNames_ne_nil_iff (ha : g.index.Accepted config) (horder : g.linearize = .ok order)
    (signal : Node → String) :
    order.publicNames signal ≠ [] ↔
      ∃ node ∈ g.nodes, node.isPublic = true ∧ g.LeadsToOutput node.id := by
  rw [LinearOrder.publicNames, ne_eq, List.map_eq_nil_iff]
  constructor
  · intro hne
    obtain ⟨node, hmem⟩ := List.exists_mem_of_ne_nil _ hne
    obtain ⟨hmem, hpublic⟩ := List.mem_filter.1 hmem
    have hnode := mem_of_mem_keptNodes horder hmem
    exact ⟨node, hnode, hpublic, (mem_keptNodes_iff ha horder hnode).1 hmem⟩
  · rintro ⟨node, hnode, hpublic, hleads⟩
    exact List.ne_nil_of_mem
      (List.mem_filter.2 ⟨(mem_keptNodes_iff ha horder hnode).2 hleads, hpublic⟩)

/-- Every output is kept. -/
theorem filter_isOutput_keptNodes (horder : g.linearize = .ok order) :
    order.keptNodes.filter Node.isOutput =
      (order.vertices.map Vertex.node).filter Node.isOutput := by
  obtain ⟨hindex, -, hordered⟩ := Index.linearize_spec g.index_sound horder
  rw [LinearOrder.keptNodes, LinearOrder.pruned, List.filter_map, List.filter_map,
    List.filter_filter]
  refine congrArg _ (List.filter_congr fun v hv => ?_)
  cases houtput : v.node.isOutput with
  | false => simp [houtput]
  | true =>
    have huseful := Index.position_mem_useful_of_mem_outputs
      (List.mem_filter.2 ⟨hordered.owners v hv, houtput⟩)
    simp [houtput, hindex, huseful]

end Graph

/-! ## The whole compilation -/

namespace Circom

section

variable {config : Config} {index : Index} {vs : List Vertex} {s : Emission} {nodes : List Node}
  {signal : Node → String} {inputs : Node → List InputDecl} (h : Emits config index vs s)
  (hinterface : s.Interface config nodes signal inputs)

include h hinterface

/-- No name is declared twice. -/
theorem Emits.nodup_interface : ((nodes.flatMap inputs).map InputDecl.name ++
    (nodes.filter Node.isOutput).map signal).Nodup := by
  have hnodup := h.wellScoped.nodup
  rw [SourceUnit.body, declared_append, declared_inputs_outputs] at hnodup
  rw [← hinterface.inputs_eq, ← hinterface.outputs_eq]
  exact (List.nodup_append'.1 hnodup).1

/-- A name is declared by one node only. -/
theorem Emits.eq_of_mem_inputs {node other : Node} (hnode : node ∈ nodes) (hother : other ∈ nodes)
    {d d' : InputDecl} (hd : d ∈ inputs node) (hd' : d' ∈ inputs other) (hname : d.name = d'.name) :
    node = other := by
  have hnodup := (List.nodup_append'.1 (h.nodup_interface hinterface)).1
  rw [List.map_flatMap] at hnodup
  exact eq_of_nodup_flatMap hnodup hnode hother (List.mem_map_of_mem hd)
    (hname ▸ List.mem_map_of_mem hd')

/-- What another node than a public input declares is not public. -/
theorem Emits.isPublic_of_mem {node : Node} (hnode : node ∈ nodes) {d : InputDecl}
    (hd : d ∈ inputs node) (hpublic : d.name ∈ (nodes.filter Node.isPublic).map signal) :
    node.isPublic = true := by
  obtain ⟨other, hother, hname⟩ := List.mem_map.1 hpublic
  obtain ⟨hmem, hother⟩ := List.mem_filter.1 hother
  have hinput := hinterface.mem_inputs_of_isPublic hmem hother
  rwa [h.eq_of_mem_inputs hinterface hnode hmem hd hinput hname.symm]

/-- No name is listed twice. -/
theorem Emits.nodup_publics (hnodes : nodes.Nodup) :
    ((nodes.filter Node.isPublic).map signal).Nodup := by
  refine (hnodes.filter _).map_on fun node hnode other hother hname => ?_
  obtain ⟨hnode, hpublic⟩ := List.mem_filter.1 hnode
  obtain ⟨hother, hpublic'⟩ := List.mem_filter.1 hother
  exact h.eq_of_mem_inputs hinterface hnode hother
    (hinterface.mem_inputs_of_isPublic hnode hpublic)
    (hinterface.mem_inputs_of_isPublic hother hpublic') hname

/-- The lines that declare inputs. -/
theorem Emits.filter_input_tailLines :
    (SourceUnit.ofFragments config s.fragments).tailLines.filter (begins "signal input ") =
      (nodes.flatMap inputs).map fun d => indent ++ d.text := by
  refine (SourceUnit.filter_begins_tailLines h.isIdentifier_names .input (by decide) (by decide)
    (by decide)).trans ?_
  rw [SourceUnit.filter_input_body, ← hinterface.inputs_eq, List.map_map]
  rfl

/-- The lines that declare outputs. -/
theorem Emits.filter_output_tailLines :
    (SourceUnit.ofFragments config s.fragments).tailLines.filter (begins "signal output ") =
      (nodes.filter Node.isOutput).map fun node => indent ++ s!"signal output {signal node};" := by
  have houtputs : (SourceUnit.ofFragments config s.fragments).outputs =
      (nodes.filter Node.isOutput).map signal := hinterface.outputs_eq
  refine (SourceUnit.filter_begins_tailLines h.isIdentifier_names .output (by decide) (by decide)
    (by decide)).trans ?_
  rw [SourceUnit.filter_output_body, houtputs, List.map_map, List.map_map]
  rfl

/-- One line assigns a value to the signal of an output. -/
theorem Emits.exists_filter_assigns {node : Node} (hnode : node ∈ nodes)
    (houtput : node.isOutput = true) :
    ∃ value : Ref, (SourceUnit.ofFragments config s.fragments).tailLines.filter
        (begins s!"{signal node} <== ") = [indent ++ s!"{signal node} <== {value.text};"] := by
  obtain ⟨value, hf⟩ := hinterface.output_mem node hnode houtput
  have hdeclared : signal node ∈ declared (SourceUnit.ofFragments config s.fragments).body := by
    rw [SourceUnit.body, declared_append, declared_inputs_outputs]
    refine List.mem_append_left _ (List.mem_append_right _ ?_)
    exact List.mem_flatMap.2 ⟨_, hf, List.mem_singleton_self _⟩
  have hidentifier := h.wellScoped.identifier _ hdeclared
  have hreserved := h.wellScoped.not_reserved _ hdeclared
  have hne {word : String} (hword : word ∈ reservedNames) : signal node ≠ word := fun heq =>
    hreserved (heq ▸ hword)
  have hlines := SourceUnit.filter_begins_tailLines h.isIdentifier_names (.assigns (signal node))
    hidentifier (hne (by decide)) (hne (by decide))
  rw [h.filter_assigns_body hf, List.map_singleton, Line.text, Statement.text,
    text_signalRef] at hlines
  exact ⟨value, hlines⟩

end

variable {config : Config} {s : Emission} {g : Graph} {order : LinearOrder}

/-- The interface of a unit that is emitted along the order of a graph. -/
theorem Emits.exposes (h : Emits config g.index order.pruned.vertices s) (hc : config.Accepted)
    (ha : g.index.Accepted config) (horder : g.linearize = .ok order) :
    ∃ signal inputs,
      (SourceUnit.ofFragments config s.fragments).Exposes config g order signal inputs := by
  obtain ⟨hindex, -, hordered⟩ := Index.linearize_spec g.index_sound horder
  have hpruned : g.index.Orders order.pruned.vertices := by
    rw [LinearOrder.pruned, hindex]
    exact hordered.pruned g.index_sound
  obtain ⟨signal, inputs, hinterface⟩ :
      ∃ signal inputs, s.Interface config order.keptNodes signal inputs :=
    h.exists_interface ha hpruned
  let u := SourceUnit.ofFragments config s.fragments
  have hpublics : u.publics = order.publicNames signal := hinterface.publics_eq
  have hidentifier : ∀ name ∈ u.publics, isIdentifier name = true := h.plain.publics
  have houtputs := Graph.filter_isOutput_keptNodes horder
  have hkept {node : Node} (hnode : node ∈ g.nodes) := Graph.mem_keptNodes_iff ha horder hnode
  refine ⟨signal, inputs, ?_⟩
  exact
    { order_perm := Graph.perm_nodes_of_linearize horder
      mem_kept_iff := fun _ hnode => hkept hnode
      kept_sublist := List.filter_sublist.map _
      text_eq := u.text_eq_append
      splitLines_eq := u.splitLines_tailLines hc.template h.isPlain_body hidentifier
      declares := hinterface.declares
      input_lines := h.filter_input_tailLines hinterface
      output_lines := houtputs ▸ h.filter_output_tailLines hinterface
      assigned := fun node hnode houtput =>
        h.exists_filter_assigns hinterface ((hkept hnode).2 ⟨node, hnode, houtput, .refl⟩) houtput
      nodup_names := houtputs ▸ h.nodup_interface hinterface
      listed := fun hne => hpublics ▸ u.filter_main_of_ne_nil (hpublics ▸ hne)
      unlisted := fun hnil => u.filter_main_of_eq_nil (hpublics.trans hnil)
      publicNames_ne_nil_iff := Graph.publicNames_ne_nil_iff ha horder signal
      nodup_publicNames := h.nodup_publics hinterface (nodup_nodes_of_orders ha hpruned)
      isIdentifier_publicNames := hpublics ▸ hidentifier
      isPublic_of_listed := fun _ hnode _ hd hlisted =>
        h.isPublic_of_mem hinterface hnode hd hlisted }

end Circom

namespace Graph

/-- The interface of an emitted circuit is that of the graph. -/
theorem exposes_of_hasFatal (config : Config) (hc : config.check = .ok ()) (g : Graph)
    (h : hasFatal (g.validate config) = false) :
    ∃ order u signal inputs, g.linearize = .ok order ∧ emitUnit config order.pruned = .ok u ∧
      (g.compile config).code = u.text ∧ u.Exposes config g order signal inputs := by
  have hc := Config.accepted_of_check hc
  have ha := accepted_of_hasFatal g.index_sound h
  obtain ⟨u, ⟨order, horder, hu⟩, hcode⟩ := exists_unit hc h
  obtain ⟨s, hs, rfl⟩ := emitUnit_eq_ok.1 hu
  obtain ⟨hindex, -⟩ := Index.linearize_spec g.index_sound horder
  rw [show order.pruned.index = g.index from hindex] at hs
  obtain ⟨signal, inputs, hexposes⟩ := hs.exposes hc ha horder
  exact ⟨order, _, signal, inputs, horder, hu, hcode, hexposes⟩

/-- The gallery's tree membership, with a secret leaf, a public root and a path. -/
theorem exposes_merkleMembership :
    let g := Exhibit.merkleMembership.graph
    ({} : Config).check = .ok () ∧ hasFatal (g.validate {}) = false ∧
      ∃ order u signal inputs, g.linearize = .ok order ∧ emitUnit {} order.pruned = .ok u ∧
        (g.compile {}).code = u.text ∧ u.Exposes {} g order signal inputs := by
  have hfatal := Exhibit.hasFatal_merkleMembership
  exact ⟨rfl, hfatal, exposes_of_hasFatal {} rfl Exhibit.merkleMembership.graph hfatal⟩

end Graph

end CircuitGraph
