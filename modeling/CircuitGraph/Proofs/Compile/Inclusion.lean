import CircuitGraph.Proofs.Circom.Instance
import CircuitGraph.Proofs.Compile.Interface

/-!
# Included files

Source includes a library file exactly if its body instantiates a template of the file
(`SourceUnit.IncludesMatch`). A gate asks for files on its own account, beside the statements that
it is emitted as, so the two have to agree for every gate (`Gate.mem_libraries_iff`). The body is
taken as text: that its lines instantiate what the statements do follows from
`Line.instantiates_iff`, once it is known that the equals sign stands in no reference, which is
carried along the emission (`Emits.equals_not_mem`).
-/

namespace CircuitGraph

open CircuitGraph.Circom CircuitGraph.Text

namespace Circom

/-! ## Lines that instantiate templates -/

variable {config : Config} {index : Index} {vs : List Vertex} {s : Emission}

/-- That the equals sign does not occur is carried on to parts. -/
theorem Ref.carried_equals_not_mem : Ref.Carried fun r => '=' ∉ r.text.toList where
  field name hname r hr := by
    have hnot : ∀ name ∈ componentSignals, '=' ∉ name.toList := by decide
    rw [equals_mem_field]
    exact not_or.2 ⟨hr, hnot name hname⟩
  atPlace r n hr := mt (equals_mem_atPlace r n).1 hr
  atCounter r offset hr := mt (equals_mem_atCounter r offset).1 hr

/-- The equals sign stands in no reference of an emission. -/
theorem Emits.equals_not_mem (h : Emits config index vs s) :
    ∀ line ∈ (s.fragments.flatMap Fragment.blocks).flatMap Block.body,
      ∀ r ∈ line.refs, '=' ∉ r.text.toList := by
  refine (h.forall_refs Ref.carried_equals_not_mem fun n hn => ?_).2
  rw [text_signalRef]
  exact equals_not_mem_of_isIdentifier hn

/-- A line of an emitted body instantiates what its statement does. -/
theorem Emits.instantiates_iff (h : Emits config index vs s) {line : Line}
    (hline : line ∈ (SourceUnit.ofFragments config s.fragments).body) {name : String} :
    Instantiates name line.text ↔ ∃ t, line.template? = some t ∧ t.name = name := by
  refine Line.instantiates_iff (h.isIdentifier_names line hline) ?_
  rcases List.mem_append.1 hline with hline | hline
  · -- a declaration has no references
    rcases List.mem_append.1 hline with hline | hline
    · obtain ⟨d, -, rfl⟩ := List.mem_map.1 hline
      exact List.forall_mem_nil _
    · obtain ⟨name, -, rfl⟩ := List.mem_map.1 hline
      exact List.forall_mem_nil _
  · exact h.equals_not_mem line hline

/-! ## Libraries and templates -/

/-- The templates of a command are those of its lines. -/
theorem Command.filterMap_template?_body (c : Command) :
    c.body.filterMap Line.template? = c.templates := by
  cases c with
  | single s => cases hs : s.template? <;> simp [templates, hs]
  | loop count body =>
    have hstart : (Line.loopStart count).template? = none := rfl
    have hend : Line.loopEnd.template? = none := rfl
    rw [Command.body, List.cons_append, List.filterMap_cons_none hstart, List.filterMap_append,
      List.filterMap_map, List.filterMap_cons_none hend, List.filterMap_nil, List.append_nil]
    rfl

/-- The templates of a block are those of its lines. -/
theorem Block.filterMap_template?_body (b : Block) :
    b.body.filterMap Line.template? = b.templates := by
  have hlead :
      (Line.blank :: (b.heading.map Line.heading).toList).filterMap Line.template? = [] := by
    cases b.heading <;> rfl
  rw [body, List.filterMap_append, hlead, List.nil_append, List.filterMap_flatMap, templates]
  exact congrArg (fun f => b.commands.flatMap f) (funext Command.filterMap_template?_body)

/-- The templates that a gate instantiates. -/
def Gate.templates (bits : Nat) : Gate → List Template
  | input _ _ | output _ _ => []
  | operation .gt _ _ => [.greaterThan bits]
  | operation .lt _ _ => [.lessThan bits]
  | operation .eq _ _ => [.isEqual]
  | operation _ _ _ => []
  | rangeCheck _ _ _ => [.greaterEqThan bits, .lessEqThan bits]
  | hash values => [.poseidon values.length]
  | conditional _ _ _ _ => [.isEqual]
  | merkleProof _ _ _ => [.multiMux1 2, .poseidon 2, .isEqual]
  | modulo _ _ => [.num2Bits bits, .lessThan bits]

/-- The templates of a block of statements are those of its statements. -/
theorem Block.templates_ofStatements (heading : Option Heading) (statements : List Statement) :
    (Block.ofStatements heading statements).templates =
      statements.filterMap Statement.template? := by
  rw [templates, ofStatements, List.flatMap_map, List.filterMap_eq_flatMap_toList]
  rfl

/-- A hash instantiates one template. -/
theorem filterMap_template?_hashStatements (name : String) (values : List Ref) :
    (Fragment.hashStatements name values).filterMap Statement.template? =
      [.poseidon values.length] := by
  -- the wires behind the component instantiate nothing
  refine congrArg (Template.poseidon values.length :: ·) ?_
  rw [List.filterMap_map, List.filterMap_eq_nil_iff]
  exact fun _ _ => rfl

/-- The blocks of a gate instantiate its templates. -/
theorem Gate.flatMap_templates_blocks (config : Config) (node : Node) (names : NameTable)
    (gate : Gate) : (gate.fragment config node names).1.blocks.flatMap Block.templates =
      gate.templates config.comparatorBits := by
  cases gate with
  | operation operator a b => cases operator <;> rfl
  | hash values =>
    change [Block.ofStatements (some _) (Fragment.hashStatements _ values)].flatMap _ = _
    rw [List.flatMap_singleton, Block.templates_ofStatements,
      filterMap_template?_hashStatements]
    rfl
  | _ => rfl

/-- A gate asks for the files that define its templates. -/
theorem Gate.mem_libraries_iff (config : Config) (node : Node) (names : NameTable) (gate : Gate)
    (library : Library) :
    library ∈ (gate.fragment config node names).1.libraries ↔
      ∃ t ∈ gate.templates config.comparatorBits, t.library = library := by
  cases gate with
  | operation operator a b =>
    cases operator <;>
      simp [fragment, Fragment.operation, Operator.isComparison, templates, Template.library,
        eq_comm]
  | merkleProof depth leaf root =>
    cases library <;> simp [fragment, Fragment.merkleProof, templates, Template.library]
  | _ =>
    simp [fragment, Fragment.input, Fragment.output, Fragment.rangeCheck, Fragment.hash,
      Fragment.conditional, Fragment.modulo, templates, Template.library, eq_comm]

/-- The templates of a unit are those of the lines of its body. -/
theorem SourceUnit.filterMap_template?_body (u : SourceUnit) :
    u.body.filterMap Line.template? = u.blocks.flatMap Block.templates := by
  have hdeclarations :
      (u.inputs.map Line.input ++ u.outputs.map Line.output).filterMap Line.template? = [] := by
    simp [List.filterMap_eq_nil_iff]
  rw [body, List.filterMap_append, hdeclarations, List.nil_append, List.filterMap_flatMap]
  exact congrArg (fun f => u.blocks.flatMap f) (funext Block.filterMap_template?_body)

/-- A file is included when a fragment asks for it. -/
theorem mem_librariesOf {fragments : List Fragment} {library : Library} :
    library ∈ librariesOf fragments ↔ ∃ f ∈ fragments, library ∈ f.libraries := by
  have hall : library ∈ Library.all := by cases library <;> decide
  simp [librariesOf, hall]

/-- A file is used when one of its templates is instantiated by a statement. -/
theorem Emits.isUsedIn_iff (h : Emits config index vs s) (library : Library) :
    library.IsUsedIn (SourceUnit.ofFragments config s.fragments).bodyLines ↔
      ∃ t ∈ (s.fragments.flatMap Fragment.blocks).flatMap Block.templates, t.library = library := by
  have hbody := SourceUnit.filterMap_template?_body (.ofFragments config s.fragments)
  rw [show (SourceUnit.ofFragments config s.fragments).blocks =
    s.fragments.flatMap Fragment.blocks from rfl] at hbody
  rw [← hbody, ← SourceUnit.map_text_body]
  constructor
  · rintro ⟨text, htext, name, hname, hinstantiates⟩
    obtain ⟨line, hline, rfl⟩ := List.mem_map.1 htext
    obtain ⟨t, ht, rfl⟩ := (h.instantiates_iff hline).1 hinstantiates
    exact ⟨t, List.mem_filterMap.2 ⟨line, hline, ht⟩, (t.name_mem_definitions_iff library).1 hname⟩
  · rintro ⟨t, ht, hlibrary⟩
    obtain ⟨line, hline, ht⟩ := List.mem_filterMap.1 ht
    exact ⟨line.text, List.mem_map_of_mem hline, t.name,
      (t.name_mem_definitions_iff library).2 hlibrary, (h.instantiates_iff hline).2 ⟨t, ht, rfl⟩⟩

/-- A file is included when it is used. -/
theorem Emits.mem_librariesOf_iff (h : Emits config index vs s) (library : Library) :
    library ∈ librariesOf s.fragments ↔
      library.IsUsedIn (SourceUnit.ofFragments config s.fragments).bodyLines := by
  have hfragment : ∀ f ∈ s.fragments, library ∈ f.libraries ↔
      ∃ t ∈ f.blocks.flatMap Block.templates, t.library = library := by
    intro f hf
    obtain ⟨gate, node, names, rfl⟩ := h.exists_gate hf
    rw [gate.flatMap_templates_blocks, gate.mem_libraries_iff]
  rw [mem_librariesOf, h.isUsedIn_iff, List.flatMap_assoc]
  constructor
  · rintro ⟨f, hf, hlibrary⟩
    obtain ⟨t, ht, hlibrary⟩ := (hfragment f hf).1 hlibrary
    exact ⟨t, List.mem_flatMap.2 ⟨f, hf, ht⟩, hlibrary⟩
  · rintro ⟨t, ht, hlibrary⟩
    obtain ⟨f, hf, ht⟩ := List.mem_flatMap.1 ht
    exact ⟨f, hf, (hfragment f hf).2 ⟨t, ht, hlibrary⟩⟩

/-! ## Included files -/

/-- The line that includes a file. -/
def Library.includeLine (config : Config) (library : Library) : String :=
  let path := config.includePath library.file
  s!"include \"{path}\";"

/-- A unit includes the files whose templates it instantiates. -/
structure SourceUnit.IncludesMatch (u : SourceUnit) (config : Config) (libraries : List Library) :
    Prop where
  /-- A file is among those that are included when a line of the body instantiates one of its
  templates. -/
  mem_iff : ∀ library, library ∈ libraries ↔ library.IsUsedIn u.bodyLines
  /-- The files are included once each, and their order is fixed. -/
  sublist : libraries.Sublist [.comparators, .poseidon, .mux1]
  /-- The lines of the included files stand between the version and the template, and nothing else
  stands there. -/
  headLines_eq : u.headLines = s!"pragma circom {config.circomVersion};" :: "" ::
    if libraries.isEmpty then [] else libraries.map (Library.includeLine config) ++ [""]
  /-- The text is made of these lines and those of the template and of the main component. -/
  text_eq : u.text = joinLines u.headLines ++ joinLines u.tailLines
  /-- The lines of the template and of the main component can be read off their text. -/
  splitLines_eq : splitLines (joinLines u.tailLines) = u.tailLines ++ [""]
  /-- The included files can be read off the text, unless the directory breaks a line. -/
  filter_include : isOneLine config.includeRoot = true →
    (splitLines u.text).filter (startsWith "include") =
      libraries.map (Library.includeLine config)

/-- The lines that include files are those of the files that fragments ask for. -/
theorem map_includeLine (config : Config) (fragments : List Fragment) :
    ((SourceUnit.ofFragments config fragments).includes.map fun path => s!"include \"{path}\";") =
      (librariesOf fragments).map (Library.includeLine config) :=
  List.map_map

/-- What is emitted includes the files whose templates it instantiates. -/
theorem Emits.includesMatch (h : Emits config index vs s) (hc : config.Accepted) :
    (SourceUnit.ofFragments config s.fragments).IncludesMatch config
      (librariesOf s.fragments) where
  mem_iff := h.mem_librariesOf_iff
  sublist := List.filter_sublist
  headLines_eq := by
    rw [SourceUnit.headLines, map_includeLine, List.isEmpty_map]
    rfl
  text_eq := SourceUnit.text_eq_append _
  splitLines_eq := SourceUnit.splitLines_tailLines _ hc.template h.isPlain_body h.plain.publics
  filter_include hroot := by
    have hincludes : ∀ path ∈ (SourceUnit.ofFragments config s.fragments).includes,
        isOneLine path = true := by
      intro path hpath
      obtain ⟨library, -, rfl⟩ := List.mem_map.1 hpath
      exact all_includePath rfl hroot (isOneLine_of_isQuotable library.isQuotable_file)
    have hlines := SourceUnit.isOneLine_lines hc.version hincludes hc.template h.isPlain_body
      h.plain.publics
    rw [SourceUnit.text, splitLines_joinLines hlines, List.filter_append,
      SourceUnit.filter_include, map_includeLine]
    exact List.append_nil _

/-- **Included files.** Whenever an order can be emitted under an accepted configuration, the files
are included whose templates the body instantiates. -/
theorem exists_includesMatch (config : Config) (hc : config.check = .ok ()) (order : LinearOrder)
    (code : String) (h : tryEmit config order = .ok code) :
    ∃ u libraries, emitUnit config order = .ok u ∧ code = u.text ∧
      u.IncludesMatch config libraries := by
  obtain ⟨u, hu, rfl⟩ := tryEmit_eq_ok.1 h
  obtain ⟨s, hs, rfl⟩ := emitUnit_eq_ok.1 hu
  exact ⟨_, librariesOf s.fragments, hu, rfl, hs.includesMatch (Config.accepted_of_check hc)⟩

/-- The gallery's hash preimage compares a hash with another one, so it includes two of the three
files. -/
theorem includesMatch_hashPreimage :
    let g := Exhibit.hashPreimage.graph
    let order : LinearOrder := ⟨g.index, g.vertices⟩
    ({} : Config).check = .ok () ∧
      (emitUnit {} order).map SourceUnit.includes =
        .ok ["circomlib/circuits/comparators.circom", "circomlib/circuits/poseidon.circom"] ∧
      ∃ code, tryEmit {} order = .ok code ∧
        ∃ u libraries, emitUnit {} order = .ok u ∧ code = u.text ∧
          u.IncludesMatch {} libraries := by
  intro g order
  have hincludes : (emitUnit {} order).map SourceUnit.includes =
      .ok ["circomlib/circuits/comparators.circom", "circomlib/circuits/poseidon.circom"] := rfl
  obtain ⟨code, hcode⟩ : ∃ code, tryEmit {} order = .ok code := ⟨_, rfl⟩
  exact ⟨rfl, hincludes, code, hcode, exists_includesMatch {} rfl order code hcode⟩

end Circom

end CircuitGraph
