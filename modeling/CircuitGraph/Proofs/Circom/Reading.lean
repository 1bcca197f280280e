import CircuitGraph.Proofs.Circom.Emission
import CircuitGraph.Proofs.Graph.Dataflow

/-!
# What a block says

`Block.reading?` reads a block of a template body: which operation it is, which references are its
operands, and which one carries its result. It knows nothing of how blocks are made. It looks at the
statements one by one, at every place where a name or an operand is repeated, and at the order in
which the operands are wired.

Every block that a gate is emitted as is read as the operation of the gate, applied to its operands
in their order (`Gate.exists_reading`).
-/

namespace CircuitGraph.Circom

/-- An operation that a block performs. -/
structure Reading where
  /-- What carries the result. -/
  result : Ref
  /-- The operation. -/
  operation : Operation
  /-- The operands, in order. -/
  operands : List Ref
deriving DecidableEq, Repr

/-- An input of a component: an element of one of its arrays. -/
def inputAt (component array : String) (k : Nat) : Ref :=
  ⟨component, [.field array, .element (.fixed k)]⟩

/-- The output signal of a component. -/
def resultOf (component : String) : Ref := ⟨component, [.field "out"]⟩

/-- The statements of commands without loops. -/
def statements? : List Command → Option (List Statement)
  | [] => some []
  | .single s :: commands => (statements? commands).map (s :: ·)
  | .loop _ _ :: _ => none

namespace Reading

/-- The operation between two values that an operator writes in one constraint. -/
def ofBinary? : BinaryOp → Option Operation
  | .add => some .add
  | .sub => some .subtract
  | .mul => some .multiply
  | _ => none

/-- Reads `signal x; x <== a ∘ b;`. -/
def arithmetic? : List Statement → Option Reading
  | [.signal name, .constrain target (.binary op (.ref a) (.ref b))] =>
    if target = ⟨name, []⟩ then
      (ofBinary? op).map fun operation => ⟨target, operation, [a, b]⟩
    else none
  | _ => none

/-- Reads `signal x; x <-- a / b; x * b === a;`. -/
def quotient? : List Statement → Option Reading
  | [.signal name, .assign target (.binary .div (.ref a) (.ref b)),
      .equate (.binary .mul (.ref factor) (.ref b')) (.ref a')] =>
    if target = ⟨name, []⟩ ∧ factor = target ∧ b' = b ∧ a' = a then
      some ⟨target, .divide, [a, b]⟩
    else none
  | _ => none

/-- The comparison of two values that a library template makes. -/
def ofTemplate? : Template → Option Operation
  | .greaterThan bits => some (.greaterThan bits)
  | .lessThan bits => some (.lessThan bits)
  | .isEqual => some .equal
  | _ => none

/-- Reads `component x = T; x.in[0] <== a; x.in[1] <== b;`. -/
def comparison? : List Statement → Option Reading
  | [.component name template, .constrain first (.ref a), .constrain second (.ref b)] =>
    if first = inputAt name "in" 0 ∧ second = inputAt name "in" 1 then
      (ofTemplate? template).map fun operation => ⟨resultOf name, operation, [a, b]⟩
    else none
  | _ => none

/-- Reads two comparisons of one value with constants, and `signal x; x <== c.out * d.out;`. -/
def range? : List Statement → Option Reading
  | [.component above (.greaterEqThan bits), .constrain above₀ (.ref value),
      .constrain above₁ (.const min), .component below (.lessEqThan bits'),
      .constrain below₀ (.ref value'), .constrain below₁ (.const max), .signal name,
      .constrain target (.binary .mul (.ref left) (.ref right))] =>
    if above₀ = inputAt above "in" 0 ∧ above₁ = inputAt above "in" 1 ∧
        below₀ = inputAt below "in" 0 ∧ below₁ = inputAt below "in" 1 ∧ bits' = bits ∧
        value' = value ∧ target = ⟨name, []⟩ ∧ left = resultOf above ∧ right = resultOf below then
      some ⟨target, .inRange bits min max, [value]⟩
    else none
  | _ => none

/-- Reads the wires to the inputs of a hash, from the one at a place on. -/
def wires? (name : String) : Nat → List Statement → Option (List Ref)
  | _, [] => some []
  | k, .constrain target (.ref value) :: statements =>
    if target = inputAt name "inputs" k then
      (wires? name (k + 1) statements).map (value :: ·)
    else none
  | _, _ => none

/-- Reads `component x = Poseidon(n);` and the wires to its inputs. -/
def hash? : List Statement → Option Reading
  | .component name (.poseidon inputs) :: statements =>
    match wires? name 0 statements with
    | some values =>
      if values.length = inputs then some ⟨resultOf name, .hash inputs, values⟩ else none
    | none => none
  | _ => none

/-- Reads the comparison of a value with a constant, and `signal x; x <== c.out * (a - b) + b;`. -/
def choice? : List Statement → Option Reading
  | [.component same .isEqual, .constrain same₀ (.ref selector),
      .constrain same₁ (.const condition), .signal name,
      .constrain target
        (.binary .add (.binary .mul (.ref matched) (.binary .sub (.ref chosen) (.ref otherwise)))
          (.ref otherwise'))] =>
    if same₀ = inputAt same "in" 0 ∧ same₁ = inputAt same "in" 1 ∧ target = ⟨name, []⟩ ∧
        matched = resultOf same ∧ otherwise' = otherwise then
      some ⟨target, .select condition, [selector, chosen, otherwise]⟩
    else none
  | _ => none

/-- Reads a division with remainder: `q <-- v \ m; x <-- v % m; v === q * m + x;`, then the bits of
the quotient and the comparison of the remainder with the divisor. -/
def remainder? : List Statement → Option Reading
  | [.signal quotient, .signal name, .assign q₀ (.binary .quotient (.ref value) (.const modulus)),
      .assign target (.binary .remainder (.ref v₁) (.const m₁)),
      .equate (.ref v₂) (.binary .add (.binary .mul (.ref q₁) (.const m₂)) (.ref r₁)),
      .component bitsName (.num2Bits bits), .constrain bitsIn (.ref q₂),
      .component below (.lessThan bits'), .constrain below₀ (.ref r₂),
      .constrain below₁ (.const m₃), .equate (.ref isBelow) (.const one)] =>
    if target = ⟨name, []⟩ ∧ q₀ = ⟨quotient, []⟩ ∧ q₁ = q₀ ∧ q₂ = q₀ ∧ r₁ = target ∧ r₂ = target ∧
        v₁ = value ∧ v₂ = value ∧ m₁ = modulus ∧ m₂ = modulus ∧ m₃ = modulus ∧ bits' = bits ∧
        bitsIn = ⟨bitsName, [.field "in"]⟩ ∧ below₀ = inputAt below "in" 0 ∧
        below₁ = inputAt below "in" 1 ∧ isBelow = resultOf below ∧ one = 1 then
      some ⟨target, .remainder bits modulus, [value]⟩
    else none
  | _ => none

/-- An element at the loop counter plus an offset, of an array of signals or components. -/
def here (array : String) (path : List Accessor) (offset : Nat) : Ref :=
  ⟨array, .element (.counter offset) :: path⟩

/-- Whether statements hash the value at one level of a path with the element of the path there, on
the side that the index of the path tells, and put the hash on the next level. -/
def isLevel (level mux hash elements indices : String) (statements : List Statement) : Bool :=
  let index : Expr := .ref (here indices [] 0)
  let side (j k : Nat) := here mux [.field "c", .element (.fixed j), .element (.fixed k)] 0
  let chosen (k : Nat) : Expr := .ref (here mux [.field "out", .element (.fixed k)] 0)
  let hashed (k : Nat) := here hash [.field "inputs", .element (.fixed k)] 0
  statements =
    [.equate (.binary .mul index (.binary .sub (.const 1) index)) (.const 0),
     .instantiate (here mux [] 0) (.multiMux1 2),
     .constrain (side 0 0) (.ref (here level [] 0)),
     .constrain (side 0 1) (.ref (here elements [] 0)),
     .constrain (side 1 0) (.ref (here elements [] 0)),
     .constrain (side 1 1) (.ref (here level [] 0)),
     .constrain (here mux [.field "s"] 0) index,
     .instantiate (here hash [] 0) (.poseidon 2),
     .constrain (hashed 0) (chosen 0),
     .constrain (hashed 1) (chosen 1),
     .constrain (here level [] 1) (.ref (here hash [.field "out"] 0))]

/-- Reads the levels of a path from a leaf up, and the comparison of the last one with a root. -/
def member? : List Command → Option Reading
  | [.single (.signalArray level size), .single (.componentArray mux muxes),
      .single (.componentArray hash hashes), .single (.constrain bottom (.ref leaf)),
      .loop depth (.equate (.binary .mul (.ref index) one) zero :: instance₁ :: side₀ ::
        .constrain side₁ (.ref element) :: rest),
      .single (.component name .isEqual), .single (.constrain name₀ (.ref top)),
      .single (.constrain name₁ (.ref root))] =>
    let statements := .equate (.binary .mul (.ref index) one) zero :: instance₁ :: side₀ ::
      .constrain side₁ (.ref element) :: rest
    if size = depth + 1 ∧ muxes = depth ∧ hashes = depth ∧
        bottom = ⟨level, [.element (.fixed 0)]⟩ ∧ top = ⟨level, [.element (.fixed depth)]⟩ ∧
        name₀ = inputAt name "in" 0 ∧ name₁ = inputAt name "in" 1 ∧
        isLevel level mux hash element.name index.name statements then
      some ⟨resultOf name, .member depth, [leaf, root]⟩
    else none
  | _ => none

end Reading

open Reading in
/-- What a block says, unless it is none of the known kinds. -/
def Block.reading? (b : Block) : Option Reading :=
  match statements? b.commands with
  | some statements =>
    hash? statements <|> arithmetic? statements <|> quotient? statements <|>
      comparison? statements <|> range? statements <|> choice? statements <|> remainder? statements
  | none => member? b.commands

/-! ## Blocks that are emitted -/

/-- The statements of a block of statements. -/
theorem statements?_map_single (statements : List Statement) :
    statements? (statements.map .single) = some statements := by
  induction statements with
  | nil => rfl
  | cons s statements ih => rw [List.map_cons, statements?, ih, Option.map_some]

/-- A block without loops is read by its statements. -/
theorem Block.reading?_ofStatements (heading : Option Heading) (statements : List Statement) :
    (Block.ofStatements heading statements).reading? =
      (Reading.hash? statements <|> Reading.arithmetic? statements <|>
        Reading.quotient? statements <|> Reading.comparison? statements <|>
        Reading.range? statements <|> Reading.choice? statements <|>
        Reading.remainder? statements) := by
  rw [reading?, ofStatements, statements?_map_single]

section

variable (heading : Option Heading) (name : String)

/-- A signal that is constrained to an expression is read as what the expression computes. -/
theorem reading?_arithmetic {op : BinaryOp} {operation : Operation}
    (h : Reading.ofBinary? op = some operation) (a b : Ref) :
    (Block.ofStatements heading (Fragment.arithmetic name op a b)).reading? =
      some ⟨signalRef name, operation, [a, b]⟩ := by
  have hread : Reading.arithmetic? (Fragment.arithmetic name op a b) =
      (Reading.ofBinary? op).map fun operation => ⟨signalRef name, operation, [a, b]⟩ := if_pos rfl
  rw [Block.reading?_ofStatements, hread, h]
  rfl

/-- A comparison is read as what its template computes. -/
theorem reading?_compare {template : Template} {operation : Operation}
    (h : Reading.ofTemplate? template = some operation) (a b : Ref) :
    (Block.ofStatements heading (compare name template a b)).reading? =
      some ⟨outputOf name, operation, [a, b]⟩ := by
  -- the first attempt must fail, as it is the only other one that begins with a component
  have hhash : Reading.hash? (compare name template a b) = none := by
    cases template with
    | poseidon inputs => cases h
    | _ => rfl
  have hread : Reading.comparison? (compare name template a b) =
      (Reading.ofTemplate? template).map fun operation => ⟨outputOf name, operation, [a, b]⟩ :=
    if_pos ⟨rfl, rfl⟩
  rw [Block.reading?_ofStatements, hhash, hread, h]
  rfl

/-- An operation is read as what its operator computes. -/
theorem reading?_operation (bits : Nat) (operator : Operator) (a b : Ref) :
    (Block.ofStatements heading (Fragment.operationStatements bits name a b operator)).reading? =
      some ⟨if operator.isComparison then outputOf name else signalRef name,
        operator.operation bits, [a, b]⟩ := by
  cases operator with
  | add | subtract | multiply => exact reading?_arithmetic heading name rfl a b
  | divide =>
    have h : Reading.quotient? (Fragment.operationStatements bits name a b .divide) =
        some ⟨signalRef name, .divide, [a, b]⟩ := if_pos ⟨rfl, rfl, rfl, rfl⟩
    rw [Block.reading?_ofStatements, h]
    rfl
  | gt | lt | eq => exact reading?_compare heading name rfl a b

/-- A range check is read as one. -/
theorem reading?_rangeCheck (bits min max : Nat) (value : Ref) :
    (Block.ofStatements heading (Fragment.rangeStatements bits name min max value)).reading? =
      some ⟨signalRef name, .inRange bits min max, [value]⟩ := by
  have h : Reading.range? (Fragment.rangeStatements bits name min max value) =
      some ⟨signalRef name, .inRange bits min max, [value]⟩ :=
    if_pos ⟨rfl, rfl, rfl, rfl, rfl, rfl, rfl, rfl, rfl⟩
  rw [Block.reading?_ofStatements, h]
  rfl

/-- The wires of a hash are read as the values. -/
theorem wires?_map (values : List Ref) (k : Nat) :
    Reading.wires? name k ((values.zipIdx k).map fun (value, i) =>
      .constrain (((signalRef name).field "inputs").atPlace i) value) = some values := by
  induction values generalizing k with
  | nil => rfl
  | cons value values ih =>
    have htarget : ((signalRef name).field "inputs").atPlace k = inputAt name "inputs" k := rfl
    rw [List.zipIdx_cons, List.map_cons, Reading.wires?, if_pos htarget, ih, Option.map_some]

/-- A hash is read as one. -/
theorem reading?_hash (values : List Ref) :
    (Block.ofStatements heading (Fragment.hashStatements name values)).reading? =
      some ⟨outputOf name, .hash values.length, values⟩ := by
  rw [Block.reading?_ofStatements, Fragment.hashStatements, Reading.hash?, wires?_map]
  dsimp only
  rw [if_pos rfl]
  rfl

/-- A choice is read as one. -/
theorem reading?_conditional (condition : Nat) (selector chosen otherwise : Ref) :
    (Block.ofStatements heading
      (Fragment.conditionalStatements name condition selector chosen otherwise)).reading? =
      some ⟨signalRef name, .select condition, [selector, chosen, otherwise]⟩ := by
  have h : Reading.choice?
      (Fragment.conditionalStatements name condition selector chosen otherwise) =
      some ⟨signalRef name, .select condition, [selector, chosen, otherwise]⟩ :=
    if_pos ⟨rfl, rfl, rfl, rfl, rfl⟩
  rw [Block.reading?_ofStatements, h]
  rfl

/-- A Merkle proof is read as one. -/
theorem reading?_merkleProof (elements indices : String) (depth : Nat) (leaf root : Ref) :
    (⟨heading, Fragment.merkleCommands name elements indices depth leaf root⟩ : Block).reading? =
      some ⟨outputOf name, .member depth, [leaf, root]⟩ := by
  -- the loop body is compared with the expected one as a whole
  have hlevel : Reading.isLevel (name ++ "_level") (name ++ "_mux") (name ++ "_hash") elements
      indices (Fragment.merkleLevel (signalRef (name ++ "_level")) (signalRef (name ++ "_mux"))
        (signalRef (name ++ "_hash")) (signalRef elements) (signalRef indices)) = true :=
    decide_eq_true rfl
  exact if_pos ⟨rfl, rfl, rfl, rfl, rfl, rfl, rfl, hlevel⟩

/-- A remainder is read as one. -/
theorem reading?_modulo (bits modulus : Nat) (value : Ref) :
    (Block.ofStatements heading (Fragment.moduloStatements bits name modulus value)).reading? =
      some ⟨signalRef name, .remainder bits modulus, [value]⟩ := by
  have h : Reading.remainder? (Fragment.moduloStatements bits name modulus value) =
      some ⟨signalRef name, .remainder bits modulus, [value]⟩ :=
    if_pos ⟨rfl, rfl, rfl, rfl, rfl, rfl, rfl, rfl, rfl, rfl, rfl, rfl, rfl, rfl, rfl, rfl, rfl⟩
  rw [Block.reading?_ofStatements, h]
  rfl

/-- What an output is constrained to is not read as a block of an operation. -/
theorem reading?_output (value : Ref) :
    (Block.ofStatements heading [.constrain (signalRef name) value]).reading? = none := rfl

end

/-- What a gate computes. -/
def Gate.operation? (config : Config) (gate : Gate) : Option Operation :=
  match gate with
  | .operation operator _ _ => some (operator.operation config.comparatorBits)
  | gate => gate.setting?.map (Setting.operation config.comparatorBits)

/-- A gate computes what its node does. -/
theorem Gate.IsOf.operation?_eq {config : Config} {node : Node} {gate : Gate}
    (h : gate.IsOf config node.kind) : node.operation? config = gate.operation? config := by
  unfold Node.operation?
  cases gate with
  | input visibility label =>
    rw [show node.kind = .input visibility label from h]
    rfl
  | output label value =>
    obtain ⟨type, hkind⟩ := h
    rw [hkind]
    rfl
  | operation operator a b =>
    rw [show node.kind = .operation operator from h]
    rfl
  | _ =>
    obtain ⟨gadget, params, setting, hkind, hresolve, hsetting⟩ := h
    cases hsetting
    simp only [hkind, hresolve]
    rfl

/-- A node that computes nothing is an input or an output. -/
theorem Gate.IsOf.isInput {config : Config} {node : Node} {gate : Gate}
    (h : gate.IsOf config node.kind) (hoperation : node.operation? config = none)
    (hnotOutput : node.isOutput = false) : node.isInput = true := by
  rw [h.operation?_eq] at hoperation
  cases gate with
  | input visibility label =>
    rw [Node.isInput, show node.kind = .input visibility label from h]
  | output label value =>
    obtain ⟨type, hkind⟩ := h
    simp [Node.isOutput, hkind] at hnotOutput
  | _ => cases hoperation

/-- A gate that computes something is emitted as one block, which is read as what it computes. -/
theorem Gate.exists_reading (config : Config) (node : Node) (names : NameTable) {gate : Gate}
    {operation : Operation} (h : gate.operation? config = some operation) :
    ∃ b r, (gate.fragment config node names).1.blocks = [b] ∧
      (gate.fragment config node names).1.result = some r ∧
      b.reading? = some ⟨r, operation, gate.operands⟩ := by
  cases gate with
  | input visibility label => cases h
  | output label value => cases h
  | operation operator a b =>
    cases h
    exact ⟨_, _, rfl, rfl, reading?_operation _ _ _ _ _ _⟩
  | rangeCheck min max value =>
    cases h
    exact ⟨_, _, rfl, rfl, reading?_rangeCheck _ _ _ _ _ _⟩
  | hash values =>
    cases h
    exact ⟨_, _, rfl, rfl, reading?_hash _ _ _⟩
  | conditional condition selector chosen otherwise =>
    cases h
    exact ⟨_, _, rfl, rfl, reading?_conditional _ _ _ _ _ _⟩
  | merkleProof depth leaf root =>
    cases h
    exact ⟨_, _, rfl, rfl, reading?_merkleProof _ _ _ _ _ _ _⟩
  | modulo modulus value =>
    cases h
    exact ⟨_, _, rfl, rfl, reading?_modulo _ _ _ _ _⟩

/-- What is read off a block of a gate is the result of the gate. -/
theorem Gate.result_eq_of_reading (config : Config) (node : Node) (names : NameTable) {gate : Gate}
    {b : Block} {reading : Reading} (hb : b ∈ (gate.fragment config node names).1.blocks)
    (h : b.reading? = some reading) :
    (gate.fragment config node names).1.result = some reading.result := by
  cases hoperation : gate.operation? config with
  | some operation =>
    obtain ⟨b', r, hblocks, hresult, hreading⟩ := gate.exists_reading config node names hoperation
    rw [hblocks, List.mem_singleton] at hb
    subst hb
    rw [hreading] at h
    cases h
    exact hresult
  | none =>
    cases gate with
    | input visibility label => cases hb
    | output label value =>
      cases List.mem_singleton.1 hb
      cases h
    | _ => cases hoperation

end CircuitGraph.Circom
