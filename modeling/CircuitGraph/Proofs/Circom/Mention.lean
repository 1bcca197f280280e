import CircuitGraph.Proofs.Circom.Constraint
import CircuitGraph.Proofs.Circom.Scope

/-!
# What a fragment mentions

The references of a gate are made from what it declares and from its operands, by steps to parts. So
a property that these steps keep holds of all references of an emission (`Emits.forall_refs`).

`Fragment.refs` lists the signals that the commands of a fragment mention, with every loop run from
zero up to its count. Fragments share the names of signals through their results only: a fragment
mentions what it declares itself and the results that it takes as operands. An array input is never
a result, so no fragment mentions the arrays of another one
(`Emits.name_ne_of_mem_arrays`).
-/

namespace CircuitGraph.Circom

/-! ## References -/

/-- The signals that an expression mentions while the counter has a value. -/
@[simp] def Expr.refs (counter : Option ℕ) : Expr → List Ref
  | ref r => [r.atCount counter]
  | const _ => []
  | binary _ left right => left.refs counter ++ right.refs counter

/-- The signals and components that a statement mentions while the counter has a value. -/
@[simp] def Statement.refs (counter : Option ℕ) : Statement → List Ref
  | signal _ | signalArray _ _ | component _ _ | componentArray _ _ => []
  | instantiate target _ => [target.atCount counter]
  | constrain target value | assign target value => target.atCount counter :: value.refs counter
  | equate left right => left.refs counter ++ right.refs counter

/-- The signals and components that a command mentions in the course of its run. -/
@[simp] def Command.refs : Command → List Ref
  | single s => s.refs none
  | loop count body => (List.range count).flatMap fun i => body.flatMap (Statement.refs (some i))

/-- The signals and components that the commands of a fragment mention. -/
def Fragment.refs (f : Fragment) : List Ref :=
  f.blocks.flatMap fun b => b.commands.flatMap Command.refs

/-- The names of the inputs of a fragment that are arrays. -/
def Fragment.arrays (f : Fragment) : List String :=
  (f.inputs.filter fun d => d.size.isSome).map InputDecl.name

/-- The name of a signal does not depend on the counter. -/
theorem Ref.name_atCount (r : Ref) (counter : Option ℕ) : (r.atCount counter).name = r.name := by
  cases counter with
  | none => rfl
  | some i => rfl

/-- The references in a line. -/
@[simp] def Line.refs : Line → List Ref
  | statement _ s => s.refs none
  | _ => []

/-- The names of the signals that an expression mentions. -/
theorem Expr.map_name_refs (counter : Option ℕ) (e : Expr) :
    (e.refs counter).map Ref.name = e.mentions := by
  induction e with
  | ref r => rw [refs, mentions, List.map_singleton, Ref.name_atCount]
  | const n => rfl
  | binary op left right hleft hright => rw [refs, mentions, List.map_append, hleft, hright]

/-- The names of the signals that a statement mentions. -/
theorem Statement.map_name_refs (counter : Option ℕ) (s : Statement) :
    (s.refs counter).map Ref.name = s.mentions := by
  cases s with
  | signal | signalArray | component | componentArray => rfl
  | instantiate target template => rw [refs, mentions, List.map_singleton, Ref.name_atCount]
  | constrain target value =>
    rw [refs, mentions, List.map_cons, Ref.name_atCount, Expr.map_name_refs]
  | assign target value =>
    rw [refs, mentions, List.map_cons, Ref.name_atCount, Expr.map_name_refs]
  | equate left right =>
    rw [refs, mentions, List.map_append, Expr.map_name_refs, Expr.map_name_refs]

/-- What a command mentions is mentioned by one of its lines. -/
theorem Command.exists_line_of_mem_refs {c : Command} {r : Ref} (h : r ∈ c.refs) :
    ∃ line ∈ c.body, r.name ∈ line.mentions := by
  cases c with
  | single s =>
    refine ⟨_, List.mem_singleton_self _, ?_⟩
    rw [Line.mentions, ← s.map_name_refs none]
    exact List.mem_map_of_mem h
  | loop count body =>
    obtain ⟨i, -, hr⟩ := List.mem_flatMap.1 h
    obtain ⟨s, hs, hr⟩ := List.mem_flatMap.1 hr
    refine ⟨.statement true s, by simp [hs], ?_⟩
    rw [Line.mentions, ← s.map_name_refs (some i)]
    exact List.mem_map_of_mem hr

/-- What a fragment mentions is mentioned by one of its lines. -/
theorem Fragment.exists_line_of_mem_refs {f : Fragment} {r : Ref} (h : r ∈ f.refs) :
    ∃ line ∈ f.blocks.flatMap Block.body, r.name ∈ line.mentions := by
  obtain ⟨b, hb, hr⟩ := List.mem_flatMap.1 h
  obtain ⟨c, hc, hr⟩ := List.mem_flatMap.1 hr
  obtain ⟨line, hline, hmem⟩ := c.exists_line_of_mem_refs hr
  refine ⟨line, List.mem_flatMap.2 ⟨b, hb, ?_⟩, hmem⟩
  exact List.mem_append_right _ (List.mem_flatMap.2 ⟨c, hc, hline⟩)

/-- The arrays of a fragment are declared by it. -/
theorem Fragment.mem_declares_of_mem_arrays {f : Fragment} {name : String}
    (h : name ∈ f.arrays) : name ∈ f.declares := by
  obtain ⟨d, hd, rfl⟩ := List.mem_map.1 h
  refine List.mem_append_left _ (List.mem_append_left _ ?_)
  exact List.mem_map_of_mem (List.mem_of_mem_filter hd)

/-! ## Gates -/

/-- In scoped lines, what a line mentions is known or declared. -/
theorem Scoped.mem_of_mentions {known : List String} {lines : List Line} (h : Scoped known lines)
    {line : Line} (hline : line ∈ lines) {n : String} (hn : n ∈ line.mentions) :
    n ∈ known ∨ n ∈ declared lines := by
  obtain ⟨before, after, rfl⟩ := List.append_of_mem hline
  rw [declared_append]
  rcases h.mentioned n hn with hmem | hmem
  · exact (List.mem_append.1 hmem).imp_right (List.mem_append_left _)
  · exact .inr (List.mem_append_right _ (List.mem_flatMap.2 ⟨line, List.mem_cons_self, hmem⟩))

namespace Gate

variable (config : Config) (node : Node) (names : NameTable) {gate : Gate} {r : Ref}

/-- A gate mentions its operands and what it declares. -/
theorem name_of_mem_refs (h : r ∈ (gate.fragment config node names).1.refs) :
    r.name ∈ gate.operands.map Ref.name ∨
      r.name ∈ (gate.fragment config node names).1.declares := by
  obtain ⟨line, hline, hmem⟩ := Fragment.exists_line_of_mem_refs h
  have hscoped := gate.scoped_fragment config node names fun _ => List.mem_map_of_mem
  rcases hscoped.mem_of_mentions hline hmem with hknown | hdeclared
  · exact (List.mem_append.1 hknown).imp_right (List.mem_append_left _)
  · exact .inr (List.mem_append_right _ hdeclared)

/-- The result of a gate is not one of its arrays. -/
theorem result_not_mem_arrays (h : (gate.fragment config node names).1.result = some r) :
    r.name ∉ (gate.fragment config node names).1.arrays := by
  cases gate with
  | merkleProof depth leaf root =>
    -- the name of the result and those of the two arrays are claimed together
    have hnodup := (grants_fragment config node names (.merkleProof depth leaf root)).nodup
    rw [Fragment.declares, List.append_assoc, List.nodup_append'] at hnodup
    cases h
    refine fun hmem => hnodup.2.2 hmem ?_
    exact List.mem_append_right [_, _, _] (List.mem_singleton_self _)
  | _ => exact List.not_mem_nil

end Gate

/-- The signals of library components. -/
def componentSignals : List String := ["in", "inputs", "c", "s", "out"]

/-- A property of references that is carried on to their parts. -/
structure Ref.Carried (P : Ref → Prop) : Prop where
  /-- The property is carried on to the signals of a component. -/
  field : ∀ name ∈ componentSignals, ∀ r, P r → P (r.field name)
  /-- The property is carried on to the elements of an array. -/
  atPlace : ∀ r n, P r → P (r.atPlace n)
  /-- The property is carried on to the elements of an array at the counter. -/
  atCounter : ∀ r offset, P r → P (r.atCounter offset)

namespace Gate

variable {P : Ref → Prop} (hP : Ref.Carried P) (config : Config) (node : Node) (names : NameTable)
  {gate : Gate}

include hP

/-- A property that is carried on holds of all references of a gate when it holds of what the gate
declares and of its operands. -/
theorem forall_refs (hown : ∀ n ∈ (gate.fragment config node names).1.declares, P (signalRef n))
    (hoperands : ∀ r ∈ gate.operands, P r) :
    ∀ line ∈ (gate.fragment config node names).1.blocks.flatMap Block.body,
      ∀ r ∈ line.refs, P r := by
  have hin := hP.field "in" (by decide)
  have hout := hP.field "out" (by decide)
  cases gate with
  | input visibility label => exact List.forall_mem_nil _
  | output label value =>
    simp only [operands, List.forall_mem_singleton] at hoperands
    simp [fragment, Fragment.output, Fragment.declares, declared, Block.ofStatements] at hown
    simp [fragment, Fragment.output, Block.ofStatements, Ref.atCount, hown, hoperands]
  | operation operator a b =>
    simp only [operands, List.forall_mem_cons] at hoperands
    obtain ⟨ha, hb, -⟩ := hoperands
    cases operator <;>
      simp [fragment, Fragment.operation, Fragment.operationStatements, Fragment.arithmetic,
        Fragment.declares, declared, Block.ofStatements, compare] at hown <;>
      simp [fragment, Fragment.operation, Fragment.operationStatements, Fragment.arithmetic,
        Block.ofStatements, compare, Ref.atCount, hown, hin, hP.atPlace, ha, hb]
  | rangeCheck min max value =>
    simp only [operands, List.forall_mem_singleton] at hoperands
    simp [fragment, Fragment.rangeCheck, Fragment.rangeStatements, Fragment.declares, declared,
      Block.ofStatements, compare] at hown
    simp [fragment, Fragment.rangeCheck, Fragment.rangeStatements, Block.ofStatements, compare,
      outputOf, Ref.atCount, hown, hin, hout, hP.atPlace, hoperands]
  | hash values =>
    rw [fragment, Fragment.declares_hash, List.forall_mem_singleton] at hown
    intro line hline
    obtain rfl | rfl | rfl | ⟨value, hvalue, i, rfl⟩ := Fragment.mem_body_hash hline
    · exact List.forall_mem_nil _
    · exact List.forall_mem_nil _
    · exact List.forall_mem_nil _
    · have hwired := hP.atPlace _ i (hP.field "inputs" (by decide) _ hown)
      exact List.forall_mem_cons.2 ⟨hwired, List.forall_mem_singleton.2 (hoperands value hvalue)⟩
  | conditional condition selector chosen otherwise =>
    simp only [operands, List.forall_mem_cons] at hoperands
    obtain ⟨hselector, hchosen, hotherwise, -⟩ := hoperands
    simp [fragment, Fragment.conditional, Fragment.conditionalStatements, Fragment.declares,
      declared, Block.ofStatements, compare] at hown
    simp [fragment, Fragment.conditional, Fragment.conditionalStatements, Block.ofStatements,
      compare, outputOf, Ref.atCount, hown, hin, hout, hP.atPlace, hselector, hchosen, hotherwise]
  | merkleProof depth leaf root =>
    simp only [operands, List.forall_mem_cons] at hoperands
    obtain ⟨hleaf, hroot, -⟩ := hoperands
    have hinputs := hP.field "inputs" (by decide)
    have hselector := hP.field "s" (by decide)
    have hchoices (r : Ref) (i j : Nat) (hr : P r) : P (((r.field "c").atPlace i).atPlace j) :=
      hP.atPlace _ j (hP.atPlace _ i (hP.field "c" (by decide) r hr))
    simp [fragment, Fragment.merkleProof, Fragment.merkleCommands, Fragment.merkleLevel,
      Fragment.declares, declared, compare] at hown
    simp [fragment, Fragment.merkleProof, Fragment.merkleCommands, Fragment.merkleLevel, compare,
      Ref.atCount, hown, hin, hout, hinputs, hselector, hchoices, hP.atPlace, hP.atCounter, hleaf,
      hroot]
  | modulo modulus value =>
    simp only [operands, List.forall_mem_singleton] at hoperands
    simp [fragment, Fragment.modulo, Fragment.moduloStatements, Fragment.declares, declared,
      Block.ofStatements, compare] at hown
    simp [fragment, Fragment.modulo, Fragment.moduloStatements, Block.ofStatements, compare,
      outputOf, Ref.atCount, hown, hin, hout, hP.atPlace, hoperands]

/-- A property that is carried on holds of the result of a gate. -/
theorem carried_result (hown : ∀ n ∈ (gate.fragment config node names).1.declares, P (signalRef n))
    {r : Ref} (h : (gate.fragment config node names).1.result = some r) : P r := by
  have hsignal := hown _ (gate.mem_declares_of_result config node names h)
  cases gate with
  | output label value => cases h
  | operation operator a b =>
    cases h
    cases operator with
    | gt | lt | eq => exact hP.field "out" (by decide) _ hsignal
    | _ => exact hsignal
  | hash values =>
    cases h
    exact hP.field "out" (by decide) _ hsignal
  | merkleProof depth leaf root =>
    cases h
    exact hP.field "out" (by decide) _ hsignal
  | _ =>
    cases h
    exact hsignal

end Gate

/-! ## Emission -/

namespace Emits

variable {config : Config} {index : Index} {vs : List Vertex} {s : Emission}

/-- A property that is carried on, and that every signal with an identifier for a name has, holds of
all references of an emission. -/
theorem forall_refs {P : Ref → Prop} (hP : Ref.Carried P)
    (hname : ∀ n, isIdentifier n = true → P (signalRef n)) (h : Emits config index vs s) :
    (∀ e ∈ s.results, P e.2) ∧
      ∀ line ∈ (s.fragments.flatMap Fragment.blocks).flatMap Block.body, ∀ r ∈ line.refs, P r := by
  induction h with
  | initial => exact ⟨nofun, nofun⟩
  | @step vs s v gate h hgate ih =>
    obtain ⟨hresults, hrefs⟩ := ih
    have hown : ∀ n ∈ (gate.fragment config v.node s.names).1.declares, P (signalRef n) :=
      fun n hn => hname n ((gate.grants_fragment config v.node s.names).identifier n hn)
    constructor
    · simp only [Emission.after]
      split
      · rename_i r hr
        rw [List.forall_mem_cons]
        exact ⟨gate.carried_result hP config v.node s.names hown hr, hresults⟩
      · exact hresults
    · -- the operands are results of the vertices before
      have hoperands : ∀ r ∈ gate.operands, P r := by
        intro r hr
        obtain ⟨p, hp⟩ := Emission.mem_results_of_mem_operands hgate hr
        exact hresults (p, r) hp
      simp only [Emission.after, List.flatMap_append, List.flatMap_singleton,
        List.forall_mem_append]
      exact ⟨hrefs, gate.forall_refs hP config v.node s.names hown hoperands⟩

/-- No result is an array. -/
theorem not_mem_arrays (h : Emits config index vs s) :
    ∀ e ∈ s.results, ∀ f ∈ s.fragments, e.2.name ∉ f.arrays := by
  induction h with
  | initial => exact nofun
  | @step vs s v gate h hgate ih =>
    have htracked := h.tracked
    have hfree := (gate.grants_fragment config v.node s.names).free
    -- what has been declared before is taken, and what the gate declares is free
    have htaken {n : String} (hn : n ∈ s.fragments.flatMap Fragment.declares) :
        n ∉ (gate.fragment config v.node s.names).1.declares := fun hmem =>
      hfree n hmem (htracked.grants.mem_taken.2 (.inl hn))
    have hold : ∀ e ∈ s.results, ∀ f ∈ (s.after config v gate).fragments,
        e.2.name ∉ f.arrays := by
      intro e he f hf
      rcases List.mem_append.1 hf with hf | hf
      · exact ih e he f hf
      · rw [List.mem_singleton.1 hf]
        exact fun hmem =>
          htaken (htracked.results e he) (Fragment.mem_declares_of_mem_arrays hmem)
    intro e he f hf
    simp only [Emission.after] at he
    split at he
    · rename_i r hresult
      rcases List.mem_cons.1 he with rfl | he
      · have hdeclared := gate.mem_declares_of_result config v.node s.names hresult
        rcases List.mem_append.1 hf with hf | hf
        · exact fun hmem => htaken
            (List.mem_flatMap.2 ⟨f, hf, Fragment.mem_declares_of_mem_arrays hmem⟩) hdeclared
        · rw [List.mem_singleton.1 hf]
          exact Gate.result_not_mem_arrays config v.node s.names hresult
      · exact hold e he f hf
    · exact hold e he f hf

/-- No fragment mentions the arrays of another one. -/
theorem name_ne_of_mem_arrays {s' : Emission} {v : Vertex} {gate : Gate} {right : List Fragment}
    (h : Emits config index vs s)
    (hgate : Gate.ofNode config v.node (Emission.value? index s.results v) = .ok gate)
    {all : List Vertex} (h' : Emits config index all s')
    (hfragments : s'.fragments =
      s.fragments ++ (gate.fragment config v.node s.names).1 :: right) :
    ∀ other ∈ s.fragments ++ right, ∀ name ∈ other.arrays,
      ∀ r ∈ (gate.fragment config v.node s.names).1.refs, r.name ≠ name := by
  intro other hother name hname r hr heq
  have hnodup := h'.tracked.grants.nodup
  rw [hfragments, List.flatMap_append, List.flatMap_cons] at hnodup
  obtain ⟨-, hnodup', hleft⟩ := List.nodup_append'.1 hnodup
  obtain ⟨-, -, hright⟩ := List.nodup_append'.1 hnodup'
  have hdeclared := Fragment.mem_declares_of_mem_arrays hname
  rcases Gate.name_of_mem_refs config v.node s.names hr with hoperand | hown
  · -- an operand is the result of a fragment on the left
    obtain ⟨o, ho, honame⟩ := List.mem_map.1 hoperand
    obtain ⟨position, hresult⟩ := Emission.mem_results_of_mem_operands hgate ho
    rcases List.mem_append.1 hother with hother | hother
    · exact h.not_mem_arrays _ hresult other hother (by rw [honame, heq]; exact hname)
    · refine hleft (h.tracked.results _ hresult) (List.mem_append_right _ ?_)
      rw [honame, heq]
      exact List.mem_flatMap.2 ⟨other, hother, hdeclared⟩
  · rw [heq] at hown
    rcases List.mem_append.1 hother with hother | hother
    · exact hleft (List.mem_flatMap.2 ⟨other, hother, hdeclared⟩) (List.mem_append_left _ hown)
    · exact hright hown (List.mem_flatMap.2 ⟨other, hother, hdeclared⟩)

end Emits

end CircuitGraph.Circom
