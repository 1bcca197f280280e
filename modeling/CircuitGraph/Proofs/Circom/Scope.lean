import CircuitGraph.Graph.Gallery
import CircuitGraph.Proofs.Circom.Emission
import CircuitGraph.Proofs.Circom.Identifier
import CircuitGraph.Proofs.Circom.NameTable

/-!
# Scopes

A template body is read line by line here (`SourceUnit.body`, whose texts are the lines that are
written): a line declares names and mentions names. `SourceUnit.WellScoped` is the property of a
body that a compiler for the language checks first: no name is declared twice, every name is a free
identifier, and what a line mentions has been declared above it or in the line itself.

Names come from the name table, and a gate declares exactly what it claims there
(`Gate.grants_fragment`). A gate mentions its own names and those of its operands, which belong to
results of gates before it (`Gate.scoped_fragment`). Both are carried along the emission.
-/

namespace CircuitGraph.Circom

/-! ## Lines -/

/-- A line of a template body. -/
inductive Line
  /-- An input is declared. -/
  | input (d : InputDecl)
  /-- An output is declared. -/
  | output (name : String)
  /-- An empty line. -/
  | blank
  /-- A comment. -/
  | heading (h : Heading)
  /-- A statement, outside or inside of a loop. -/
  | statement (inLoop : Bool) (s : Statement)
  /-- A loop begins. -/
  | loopStart (count : Nat)
  /-- A loop ends. -/
  | loopEnd
deriving DecidableEq, Repr

/-- The text of a line. -/
def Line.text : Line → String
  | input d => indent ++ d.text
  | output name => indent ++ s!"signal output {name};"
  | blank => ""
  | heading h => indent ++ h.text
  | statement inLoop s => indent ++ (if inLoop then indent ++ s.text else s.text)
  | loopStart count =>
    let i := counterName
    indent ++ s!"for (var {i} = 0; {i} < {count}; {i}++) \x7b"
  | loopEnd => indent ++ "\x7d"

/-- The lines of a command. -/
@[simp] def Command.body : Command → List Line
  | single s => [.statement false s]
  | loop count statements => .loopStart count :: statements.map (.statement true) ++ [.loopEnd]

/-- The lines of a block, with the empty line in front. -/
@[simp] def Block.body (b : Block) : List Line :=
  .blank :: (b.heading.map Line.heading).toList ++ b.commands.flatMap Command.body

/-- The lines of a template body. -/
def SourceUnit.body (u : SourceUnit) : List Line :=
  u.inputs.map .input ++ u.outputs.map .output ++ u.blocks.flatMap Block.body

/-- The lines of a command are the texts of its lines. -/
theorem Command.map_text_body (c : Command) :
    c.body.map Line.text = c.lines.map fun line => indent ++ line := by
  cases c with
  | single s => rfl
  | loop count statements =>
    simp only [body, lines, List.map_cons, List.map_append, List.map_map, List.map_nil,
      List.cons_append]
    rfl

/-- The lines of a block are the texts of its lines. -/
theorem Block.map_text_body (b : Block) :
    b.body.map Line.text = "" :: b.lines.map fun line => indent ++ line := by
  have hcommands : (b.commands.flatMap Command.body).map Line.text =
      (b.commands.flatMap Command.lines).map fun line => indent ++ line := by
    rw [List.map_flatMap, List.map_flatMap]
    exact congrArg (fun f => b.commands.flatMap f) (funext Command.map_text_body)
  simp only [body, lines, List.cons_append, List.map_cons, List.map_append, hcommands]
  cases b.heading with
  | none => rfl
  | some h => rfl

/-- The lines that are written are the texts of the lines of the body. -/
theorem SourceUnit.map_text_body (u : SourceUnit) : u.body.map Line.text = u.bodyLines := by
  simp only [body, bodyLines, List.map_append, List.map_map, List.map_flatMap]
  exact congrArg (fun f => _ ++ u.blocks.flatMap f) (funext Block.map_text_body)

/-! ## Names in lines -/

/-- The names that a statement declares. -/
@[simp] def Statement.declares : Statement → List String
  | signal name | signalArray name _ | component name _ | componentArray name _ => [name]
  | instantiate _ _ | constrain _ _ | assign _ _ | equate _ _ => []

/-- The names of signals and components that an expression mentions. -/
@[simp] def Expr.mentions : Expr → List String
  | ref r => [r.name]
  | const _ => []
  | binary _ left right => left.mentions ++ right.mentions

/-- The names of signals and components that a statement mentions. -/
@[simp] def Statement.mentions : Statement → List String
  | signal _ | signalArray _ _ | component _ _ | componentArray _ _ => []
  | instantiate target _ => [target.name]
  | constrain target value | assign target value => target.name :: value.mentions
  | equate left right => left.mentions ++ right.mentions

namespace Line

/-- The names that a line declares. -/
@[simp] def declares : Line → List String
  | input d => [d.name]
  | output name => [name]
  | statement _ s => s.declares
  | blank | heading _ | loopStart _ | loopEnd => []

/-- The names of signals and components that a line mentions. -/
@[simp] def mentions : Line → List String
  | statement _ s => s.mentions
  | input _ | output _ | blank | heading _ | loopStart _ | loopEnd => []

end Line

/-- The names that lines declare. -/
def declared (lines : List Line) : List String := lines.flatMap Line.declares

/-- A template body in which names are declared once and before they are mentioned. -/
structure SourceUnit.WellScoped (u : SourceUnit) : Prop where
  /-- No name is declared twice. -/
  nodup : (declared u.body).Nodup
  /-- Every name is an identifier. -/
  identifier : ∀ n ∈ declared u.body, isIdentifier n = true
  /-- No name is reserved. -/
  not_reserved : ∀ n ∈ declared u.body, n ∉ reservedNames
  /-- No name is that of the template. -/
  ne_template : ∀ n ∈ declared u.body, n ≠ u.template
  /-- What a line mentions has been declared above it or in it. -/
  mentioned : ∀ before line after, u.body = before ++ line :: after →
    ∀ n ∈ line.mentions, n ∈ declared before ∨ n ∈ line.declares

/-! ## Scoping -/

/-- Whatever a line mentions is known, or has been declared above it or in it. -/
@[simp] def Scoped (known : List String) : List Line → Prop
  | [] => True
  | line :: lines =>
    (∀ n ∈ line.mentions, n ∈ known ∨ n ∈ line.declares) ∧ Scoped (known ++ line.declares) lines

/-- What is declared by lines and further lines is declared by one or the other. -/
theorem declared_append (a b : List Line) : declared (a ++ b) = declared a ++ declared b :=
  List.flatMap_append

/-- Lines remain scoped when more is known. -/
theorem Scoped.mono {known known' : List String} {lines : List Line} (h : Scoped known lines)
    (hsub : ∀ n ∈ known, n ∈ known') : Scoped known' lines := by
  induction lines generalizing known known' with
  | nil => trivial
  | cons line lines ih =>
    refine ⟨fun n hn => (h.1 n hn).imp_left (hsub n), ih h.2 fun n hn => ?_⟩
    rcases List.mem_append.1 hn with hn | hn
    · exact List.mem_append_left _ (hsub n hn)
    · exact List.mem_append_right _ hn

/-- The lines behind others know what those declare. -/
theorem scoped_append {known : List String} {a b : List Line} :
    Scoped known (a ++ b) ↔ Scoped known a ∧ Scoped (known ++ declared a) b := by
  induction a generalizing known with
  | nil => simp [Scoped, declared]
  | cons line a ih =>
    rw [List.cons_append, Scoped, Scoped, ih, and_assoc]
    simp only [declared, List.flatMap_cons, List.append_assoc]

/-- Lines that only mention what is known are scoped. -/
theorem scoped_of_mentions {known : List String} {lines : List Line}
    (h : ∀ line ∈ lines, ∀ n ∈ line.mentions, n ∈ known) : Scoped known lines := by
  induction lines generalizing known with
  | nil => trivial
  | cons line lines ih =>
    refine ⟨fun n hn => .inl (h line List.mem_cons_self n hn), ih fun other hother n hn => ?_⟩
    exact List.mem_append_left _ (h other (List.mem_cons_of_mem _ hother) n hn)

/-- In scoped lines, what a line mentions is known or declared above it or in it. -/
theorem Scoped.mentioned {known before after : List _} {line : Line}
    (h : Scoped known (before ++ line :: after)) :
    ∀ n ∈ line.mentions, n ∈ known ++ declared before ∨ n ∈ line.declares :=
  (scoped_append.1 h).2.1

/-! ## Gates -/

/-- The names that a fragment declares. -/
def Fragment.declares (f : Fragment) : List String :=
  f.inputs.map InputDecl.name ++ f.outputs ++ declared (f.blocks.flatMap Block.body)

/-- Claims of identifiers. -/
structure NameTable.Grants (t : NameTable) (names : List String) (t' : NameTable) : Prop
    extends t.Claims names t' where
  /-- Every name is an identifier. -/
  identifier : ∀ n ∈ names, isIdentifier n = true

/-- Suffixes that may be put behind identifiers, distinct and not empty. -/
structure AreSuffixes (suffixes : List String) : Prop where
  /-- The suffixes are distinct, and none of them is empty. -/
  nodup : ("" :: suffixes).Nodup
  /-- The suffixes are made of characters that an identifier may go on with. -/
  word : ∀ suffix ∈ suffixes, ∀ c ∈ suffix.toList, IsWordChar c

namespace NameTable

variable {t t' t'' : NameTable} {names names' : List String}

/-- Two grants, one after the other. -/
theorem Grants.append (h : t.Grants names t') (h' : t'.Grants names' t'') :
    t.Grants (names ++ names') t'' where
  toClaims := h.toClaims.append h'.toClaims
  identifier n hn := by
    rcases List.mem_append.1 hn with hn | hn
    · exact h.identifier n hn
    · exact h'.identifier n hn

/-- The order in which names are listed does not matter for their being granted. -/
theorem Grants.perm (h : t.Grants names t') (hperm : names.Perm names') : t.Grants names' t' where
  toClaims := h.toClaims.perm hperm
  identifier n hn := h.identifier n (hperm.mem_iff.2 hn)

/-- An allocation for an identifier grants the family of its name. -/
theorem grants_allocate (t : NameTable) (base : String) (hbase : isIdentifier base = true)
    {suffixes : List String} (h : AreSuffixes suffixes) :
    t.Grants (family suffixes (t.allocate base suffixes).1) (t.allocate base suffixes).2 where
  toClaims := t.claims_allocate base h.nodup
  identifier n hn := by
    have hname : isIdentifier (t.allocate base suffixes).1 = true :=
      isIdentifier_fresh hbase t suffixes
    rcases List.mem_cons.1 hn with rfl | hn
    · exact hname
    · obtain ⟨suffix, hsuffix, rfl⟩ := List.mem_map.1 hn
      exact isIdentifier_append hname (h.word suffix hsuffix)

end NameTable

/-- Suffixes can be looked through character by character. -/
theorem areSuffixes_of_all {suffixes : List String} (hnodup : ("" :: suffixes).Nodup)
    (h : (suffixes.all fun suffix => suffix.toList.all fun c => decide (IsWordChar c)) = true) :
    AreSuffixes suffixes where
  nodup := hnodup
  word := by
    intro suffix hsuffix c hc
    exact of_decide_eq_true (List.all_eq_true.1 (List.all_eq_true.1 h suffix hsuffix) c hc)

/-- Nothing is derived from the name of a gate that is made of one statement or component. -/
theorem areSuffixes_nil : AreSuffixes [] := ⟨List.nodup_singleton _, nofun⟩

/-- The suffixes of a range check may be put behind identifiers. -/
theorem areSuffixes_range : AreSuffixes rangeSuffixes :=
  areSuffixes_of_all (by decide) rfl

/-- The suffix of a choice may be put behind identifiers. -/
theorem areSuffixes_conditional : AreSuffixes conditionalSuffixes :=
  areSuffixes_of_all (by decide) rfl

/-- The suffixes of a Merkle proof may be put behind identifiers. -/
theorem areSuffixes_merkle : AreSuffixes merkleSuffixes :=
  areSuffixes_of_all (by decide) rfl

/-- The suffixes of a remainder may be put behind identifiers. -/
theorem areSuffixes_modulo : AreSuffixes moduloSuffixes :=
  areSuffixes_of_all (by decide) rfl

/-- The comment in a block is its heading. -/
theorem Block.heading_of_mem_body {b : Block} {heading : Heading} (h : .heading heading ∈ b.body) :
    b.heading = some heading := by
  rcases List.mem_append.1 h with h | h
  · simpa using h
  · obtain ⟨c, -, hc⟩ := List.mem_flatMap.1 h
    cases c <;> simp at hc

/-- The lines of a block of statements. -/
theorem Block.body_ofStatements (heading : Option Heading) (statements : List Statement) :
    (Block.ofStatements heading statements).body =
      .blank :: (heading.map Line.heading).toList ++ statements.map (.statement false) := by
  have hcommands : (statements.map Command.single).flatMap Command.body =
      statements.map (.statement false) := by
    rw [List.flatMap_map, List.map_eq_flatMap]
    rfl
  rw [body, ofStatements, hcommands]

/-- A block of statements declares what its statements declare. -/
theorem declared_ofStatements (heading : Option Heading) (statements : List Statement) :
    declared (Block.ofStatements heading statements).body =
      statements.flatMap Statement.declares := by
  rw [Block.body_ofStatements, declared_append, declared, declared, List.flatMap_map]
  cases heading with
  | none => rfl
  | some h => rfl

/-- A block of statements is scoped when its statements are. -/
theorem scoped_ofStatements {known : List String} (heading : Option Heading)
    {statements : List Statement} (h : Scoped known (statements.map (.statement false))) :
    Scoped known (Block.ofStatements heading statements).body := by
  rw [Block.body_ofStatements, scoped_append]
  cases heading with
  | none => exact ⟨by simp, by simpa [declared] using h⟩
  | some _ => exact ⟨by simp, by simpa [declared] using h⟩

/-- A hash declares its component only. -/
theorem Fragment.declares_hash (heading : Heading) (name : String) (values : List Ref) :
    (Fragment.hash heading name values).declares = [name] := by
  change declared ([Block.ofStatements _ (hashStatements name values)].flatMap Block.body) = _
  rw [List.flatMap_singleton, declared_ofStatements, hashStatements, List.flatMap_cons,
    List.flatMap_map]
  -- the wires declare nothing
  exact congrArg ([name] ++ ·) (List.flatMap_eq_nil_iff.2 fun _ _ => rfl)

/-- Behind the component of a hash stand the wires, which take one value each. -/
theorem Fragment.mem_body_hash {heading : Heading} {name : String} {values : List Ref} {line : Line}
    (h : line ∈ (Fragment.hash heading name values).blocks.flatMap Block.body) :
    line = .blank ∨ line = .heading heading ∨
      line = .statement false (.component name (.poseidon values.length)) ∨
      ∃ value ∈ values, ∃ i, line =
        .statement false (.constrain (((signalRef name).field "inputs").atPlace i) value) := by
  change line ∈ [Block.ofStatements (some heading) (hashStatements name values)].flatMap _ at h
  rw [List.flatMap_singleton, Block.body_ofStatements] at h
  rcases List.mem_append.1 h with h | h
  · exact (List.mem_pair.1 h).imp_right .inl
  · obtain ⟨s, hs, rfl⟩ := List.mem_map.1 h
    rcases List.mem_cons.1 hs with rfl | hs
    · exact .inr (.inr (.inl rfl))
    · obtain ⟨⟨value, i⟩, hvalue, rfl⟩ := List.mem_map.1 hs
      exact .inr (.inr (.inr ⟨value, List.fst_mem_of_mem_zipIdx hvalue, i, rfl⟩))

/-- A gate is granted the names that its fragment declares. -/
theorem Gate.grants_fragment (config : Config) (node : Node) (names : NameTable) (gate : Gate) :
    names.Grants (gate.fragment config node names).1.declares
      (gate.fragment config node names).2 := by
  have hnode := isIdentifier_nodeIdentifier node.id
  cases gate with
  | input visibility label =>
    exact names.grants_allocate _ (isIdentifier_labelIdentifier label) areSuffixes_nil
  | output label value =>
    exact names.grants_allocate _ (isIdentifier_labelIdentifier label) areSuffixes_nil
  | operation operator a b =>
    have h := names.grants_allocate _ hnode areSuffixes_nil
    cases operator with
    | _ => exact h
  | rangeCheck min max value =>
    -- the two comparisons are declared in front of the signal of the result
    have h := names.grants_allocate _ hnode areSuffixes_range
    exact h.perm (@List.perm_append_comm _ [_] [_, _])
  | hash values =>
    have h := names.grants_allocate _ hnode areSuffixes_nil
    rw [Gate.fragment, Fragment.declares_hash]
    exact h
  | conditional condition selector chosen otherwise =>
    exact (names.grants_allocate _ hnode areSuffixes_conditional).perm (.swap _ _ _)
  | merkleProof depth leaf root =>
    have hname := names.grants_allocate _ hnode areSuffixes_merkle
    have helements := hname.append
      (NameTable.grants_allocate _ "pathElements" (by decide) areSuffixes_nil)
    have hindices := helements.append
      (NameTable.grants_allocate _ "pathIndices" (by decide) areSuffixes_nil)
    -- the arrays are declared with the inputs, and the component that gives the result comes last
    refine hindices.perm ?_
    refine (@List.perm_append_comm _ [_, _, _, _] [_, _]).trans ?_
    exact (@List.perm_append_comm _ [_] [_, _, _]).append_left [_, _]
  | modulo modulus value =>
    exact (names.grants_allocate _ hnode areSuffixes_modulo).perm (.swap _ _ _)

/-- A gate mentions its operands and what it declares itself, after having declared it. -/
theorem Gate.scoped_fragment (config : Config) (node : Node) (names : NameTable) {gate : Gate}
    {known : List String} (h : ∀ r ∈ gate.operands, r.name ∈ known) :
    Scoped
      (known ++ ((gate.fragment config node names).1.inputs.map InputDecl.name ++
        (gate.fragment config node names).1.outputs))
      ((gate.fragment config node names).1.blocks.flatMap Block.body) := by
  cases gate with
  | input visibility label => trivial
  | output label value =>
    have hvalue := h value (by simp [operands])
    simp [fragment, Fragment.output, Block.ofStatements, signalRef, hvalue]
  | operation operator a b =>
    have ha := h a (by simp [operands])
    have hb := h b (by simp [operands])
    cases operator <;>
      simp [fragment, Fragment.operation, Fragment.operationStatements, Fragment.arithmetic,
        Block.ofStatements, compare, Ref.atPlace, Ref.field, signalRef, ha, hb]
  | rangeCheck min max value =>
    have hvalue := h value (by simp [operands])
    simp [fragment, Fragment.rangeCheck, Fragment.rangeStatements, Block.ofStatements, compare,
      Ref.atPlace, Ref.field, signalRef, outputOf, hvalue]
  | hash values =>
    change Scoped (known ++ []) ([Block.ofStatements _ _].flatMap Block.body)
    rw [List.flatMap_singleton]
    refine scoped_ofStatements _ ⟨by simp, scoped_of_mentions fun line hline n hn => ?_⟩
    -- behind the component stand the wires, which mention it and one value each
    obtain ⟨s, hs, rfl⟩ := List.mem_map.1 hline
    obtain ⟨⟨value, i⟩, hvalue, rfl⟩ := List.mem_map.1 hs
    rcases List.mem_cons.1 hn with rfl | hn
    · simp [Ref.atPlace, Ref.field, signalRef]
    · have hmem := h value (List.fst_mem_of_mem_zipIdx hvalue)
      rw [List.mem_singleton.1 hn, List.append_nil]
      exact List.mem_append_left _ hmem
  | conditional condition selector chosen otherwise =>
    have hselector := h selector (by simp [operands])
    have hchosen := h chosen (by simp [operands])
    have hotherwise := h otherwise (by simp [operands])
    simp [fragment, Fragment.conditional, Fragment.conditionalStatements, Block.ofStatements,
      compare, Ref.atPlace, Ref.field, signalRef, outputOf, hselector, hchosen, hotherwise]
  | merkleProof depth leaf root =>
    have hleaf := h leaf (by simp [operands])
    have hroot := h root (by simp [operands])
    simp [fragment, Fragment.merkleProof, Fragment.merkleCommands, Fragment.merkleLevel, compare,
      Ref.atPlace, Ref.atCounter, Ref.field, signalRef, hleaf, hroot]
  | modulo modulus value =>
    have hvalue := h value (by simp [operands])
    simp [fragment, Fragment.modulo, Fragment.moduloStatements, Block.ofStatements, compare,
      Ref.atPlace, Ref.field, signalRef, outputOf, hvalue]

/-- The result of a gate belongs to what the gate declares. -/
theorem Gate.mem_declares_of_result (config : Config) (node : Node) (names : NameTable)
    {gate : Gate} {r : Ref} (h : (gate.fragment config node names).1.result = some r) :
    r.name ∈ (gate.fragment config node names).1.declares := by
  -- what is declared is listed in the order of the declarations, which differs from gate to gate
  cases gate with
  | input visibility label =>
    cases h
    exact List.mem_singleton_self _
  | output label value => cases h
  | operation operator a b =>
    cases h
    cases operator with
    | _ => exact List.mem_singleton_self _
  | rangeCheck min max value =>
    cases h
    exact List.mem_append_right [_, _] (List.mem_singleton_self _)
  | hash values =>
    cases h
    rw [fragment, Fragment.declares_hash]
    exact List.mem_singleton_self _
  | conditional condition selector chosen otherwise =>
    cases h
    exact List.mem_append_right [_] (List.mem_singleton_self _)
  | merkleProof depth leaf root =>
    cases h
    exact List.mem_append_right [_, _, _, _, _] (List.mem_singleton_self _)
  | modulo modulus value =>
    cases h
    exact List.mem_cons_of_mem _ List.mem_cons_self

/-! ## Emission -/

/-- The names that are declared before the blocks of fragments. -/
def opening (fragments : List Fragment) : List String :=
  fragments.flatMap fun f => f.inputs.map InputDecl.name ++ f.outputs

/-- What fragments declare is declared in front of their blocks or by them. -/
theorem declares_perm (fragments : List Fragment) :
    (fragments.flatMap Fragment.declares).Perm
      (opening fragments ++ declared ((fragments.flatMap Fragment.blocks).flatMap Block.body)) := by
  have hblocks : declared ((fragments.flatMap Fragment.blocks).flatMap Block.body) =
      fragments.flatMap fun f => declared (f.blocks.flatMap Block.body) := by
    rw [List.flatMap_assoc, declared, List.flatMap_assoc]
    rfl
  rw [hblocks, opening]
  exact (List.flatMap_append_perm fragments _ _).symm

/-- What holds of the names at any time of an emission. -/
structure Emission.Tracked (config : Config) (s : Emission) : Prop where
  /-- The names that the fragments declare have been granted. -/
  grants : (NameTable.initial config.templateName).Grants
    (s.fragments.flatMap Fragment.declares) s.names
  /-- Every result belongs to a declared name. -/
  results : ∀ e ∈ s.results, e.2.name ∈ s.fragments.flatMap Fragment.declares
  /-- The blocks mention what is declared in front of them or above. -/
  blocks : Scoped (opening s.fragments) ((s.fragments.flatMap Fragment.blocks).flatMap Block.body)

namespace Emission

variable {config : Config} {index : Index}

/-- Nothing has been named before the first vertex. -/
theorem tracked_initial (config : Config) : (initial config).Tracked config where
  grants := ⟨.nil _, nofun⟩
  results := nofun
  blocks := trivial

/-- The operands of a gate are results of the vertices before. -/
theorem mem_results_of_mem_operands {s : Emission} {v : Vertex} {gate : Gate}
    (hgate : Gate.ofNode config v.node (value? index s.results v) = .ok gate) {r : Ref}
    (hr : r ∈ gate.operands) : ∃ p, (p, r) ∈ s.results := by
  have hvalues := (Gate.fits_of_ofNode hgate).values
  have hmem : some r ∈ gate.ports.map (value? index s.results v) := by
    rw [hvalues]
    exact List.mem_map_of_mem hr
  obtain ⟨port, -, hport⟩ := List.mem_map.1 hmem
  obtain ⟨w, -, -, hlookup⟩ := exists_of_value? hport
  obtain ⟨before, after, hresults, -⟩ := List.lookup_eq_some_iff.1 hlookup
  exact ⟨_, by rw [hresults]; exact List.mem_append_right _ List.mem_cons_self⟩

/-- One step keeps track of the names. -/
theorem Tracked.after {s : Emission} (h : s.Tracked config) {v : Vertex} {gate : Gate}
    (hgate : Gate.ofNode config v.node (value? index s.results v) = .ok gate) :
    (s.after config v gate).Tracked config where
  grants := by
    simp only [Emission.after, List.flatMap_append, List.flatMap_singleton]
    exact h.grants.append (gate.grants_fragment config v.node s.names)
  results := by
    have hold : ∀ e ∈ s.results,
        e.2.name ∈ (s.after config v gate).fragments.flatMap Fragment.declares := by
      intro e he
      simp only [Emission.after, List.flatMap_append]
      exact List.mem_append_left _ (h.results e he)
    intro e he
    simp only [Emission.after] at he
    split at he
    · rename_i r hresult
      rcases List.mem_cons.1 he with rfl | he
      · simp only [Emission.after, List.flatMap_append, List.flatMap_singleton]
        exact List.mem_append_right _ (gate.mem_declares_of_result config v.node s.names hresult)
      · exact hold e he
    · exact hold e he
  blocks := by
    -- the operands are results, and results are declared
    have hoperands : ∀ r ∈ gate.operands, r.name ∈ opening s.fragments ++
        declared ((s.fragments.flatMap Fragment.blocks).flatMap Block.body) := by
      intro r hr
      obtain ⟨p, hp⟩ := mem_results_of_mem_operands hgate hr
      exact (declares_perm _).mem_iff.1 (h.results _ hp)
    have hfragment := gate.scoped_fragment config v.node s.names hoperands
    simp only [Emission.after, opening, List.flatMap_append, List.flatMap_singleton]
    refine scoped_append.2 ⟨h.blocks.mono fun n hn => List.mem_append_left _ hn, ?_⟩
    -- what is declared in front of the new blocks comes before the blocks that are there already
    refine hfragment.mono fun n hn => ?_
    simp only [List.mem_append] at hn ⊢
    tauto

end Emission

/-- All along the emission the names are kept track of. -/
theorem Emits.tracked {config : Config} {index : Index} {vs : List Vertex} {s : Emission}
    (h : Emits config index vs s) : s.Tracked config := by
  induction h with
  | initial => exact Emission.tracked_initial config
  | step _ hgate ih => exact ih.after hgate

/-- What a gate declares has other names than its operands. -/
theorem Emits.not_mem_declares_of_mem_operands {config : Config} {index : Index}
    {vs : List Vertex} {s : Emission} (h : Emits config index vs s) {v : Vertex} {gate : Gate}
    (hgate : Gate.ofNode config v.node (Emission.value? index s.results v) = .ok gate) {r : Ref}
    (hr : r ∈ gate.operands) : r.name ∉ (gate.fragment config v.node s.names).1.declares := by
  obtain ⟨p, hp⟩ := Emission.mem_results_of_mem_operands hgate hr
  have htaken : r.name ∈ s.names.taken :=
    h.tracked.grants.mem_taken.2 (.inl (h.tracked.results _ hp))
  exact fun hmem => (gate.grants_fragment config v.node s.names).free _ hmem htaken

/-- The lines in front of the blocks declare the inputs and the outputs. -/
theorem declared_inputs_outputs (u : SourceUnit) :
    declared (u.inputs.map Line.input ++ u.outputs.map Line.output) =
      u.inputs.map InputDecl.name ++ u.outputs := by
  have hinputs : declared (u.inputs.map Line.input) = u.inputs.map InputDecl.name := by
    rw [declared, List.flatMap_map, List.map_eq_flatMap]
    rfl
  have houtputs : declared (u.outputs.map Line.output) = u.outputs := by
    rw [declared, List.flatMap_map]
    exact List.flatMap_singleton' u.outputs
  rw [declared_append, hinputs, houtputs]

/-- The inputs and outputs of the unit of fragments are those of the fragments. -/
theorem opening_perm (config : Config) (fragments : List Fragment) :
    ((SourceUnit.ofFragments config fragments).inputs.map InputDecl.name ++
      (SourceUnit.ofFragments config fragments).outputs).Perm (opening fragments) := by
  rw [SourceUnit.ofFragments, List.map_flatMap]
  exact List.flatMap_append_perm fragments _ _

/-- The unit of fragments declares what the fragments declare. -/
theorem declared_body_perm (config : Config) (fragments : List Fragment) :
    (declared (SourceUnit.ofFragments config fragments).body).Perm
      (fragments.flatMap Fragment.declares) := by
  -- only the order differs: inputs and outputs come first in the unit
  refine List.Perm.trans ?_ (declares_perm fragments).symm
  rw [SourceUnit.body, declared_append, declared_inputs_outputs]
  exact (opening_perm config fragments).append_right _

/-- What is emitted is well scoped. -/
theorem Emits.wellScoped {config : Config} {index : Index} {vs : List Vertex} {s : Emission}
    (h : Emits config index vs s) : (SourceUnit.ofFragments config s.fragments).WellScoped := by
  have htracked := h.tracked
  have hperm := declared_body_perm config s.fragments
  have hfree : ∀ n ∈ declared (SourceUnit.ofFragments config s.fragments).body,
      n ∉ config.templateName :: reservedNames :=
    fun n hn => htracked.grants.free n (hperm.mem_iff.1 hn)
  -- the declarations in front mention nothing, and the blocks only what is in front of them
  have hscoped : Scoped [] (SourceUnit.ofFragments config s.fragments).body := by
    refine scoped_append.2 ⟨scoped_of_mentions ?_, htracked.blocks.mono fun n hn => ?_⟩
    · intro line hline n hn
      rcases List.mem_append.1 hline with hline | hline
      · obtain ⟨d, -, rfl⟩ := List.mem_map.1 hline
        cases hn
      · obtain ⟨name, -, rfl⟩ := List.mem_map.1 hline
        cases hn
    · rw [declared_inputs_outputs]
      exact (opening_perm config s.fragments).mem_iff.2 hn
  exact
    { nodup := hperm.nodup_iff.2 htracked.grants.nodup
      identifier := fun n hn => htracked.grants.identifier n (hperm.mem_iff.1 hn)
      not_reserved := fun n hn hreserved => hfree n hn (List.mem_cons_of_mem _ hreserved)
      ne_template := fun n hn heq => hfree n hn (heq ▸ List.mem_cons_self)
      mentioned := by
        intro before line after hbody n hn
        rw [hbody] at hscoped
        exact hscoped.mentioned n hn }

end CircuitGraph.Circom
