import CircuitGraph.Proofs.Circom.Kept
import CircuitGraph.Proofs.Circom.Reading

/-!
# Gates determine their results

Two assignments that keep the block of a gate, and agree on the operands of the gate, agree on its
result, with two reservations. A quotient is constrained by its product with the divisor only, so
nothing is known of a quotient of zero by zero (`Block.QuotientDefined`). A remainder is constrained
to be less than the modulus, but not to be at least zero (`Block.RemainderNarrow`), and the sum of
which it is a part may exceed the order of the field (`Block.RemainderUnwrapped`).

Each family of statements has one lemma, and `Gate.result_agrees` puts them together.
-/

namespace CircuitGraph.Circom

variable {p : ℕ} {hash : List (ZMod p) → ZMod p} {σ τ : Ref → ZMod p}

/-! ## Reservations -/

/-- Where a block divides, one of the two operands is not zero. -/
def Block.QuotientDefined (σ : Ref → ZMod p) (b : Block) : Prop :=
  ∀ r x y, b.reading? = some ⟨r, .divide, [x, y]⟩ → σ x ≠ 0 ∨ σ y ≠ 0

/-- Where a block takes a remainder, the result is a number of as many bits as the comparators have:
it is not below zero. -/
def Block.RemainderNarrow (σ : Ref → ZMod p) (b : Block) : Prop :=
  ∀ r bits modulus x, b.reading? = some ⟨r, .remainder bits modulus, [x]⟩ → (σ r).val < 2 ^ bits

/-- Where the sum of a remainder and the product could exceed the order of the field, it does
not. -/
def Block.RemainderUnwrapped (σ : Ref → ZMod p) (b : Block) : Prop :=
  ∀ r bits modulus x, b.reading? = some ⟨r, .remainder bits modulus, [x]⟩ →
    p < 2 ^ bits * modulus → (σ (signalRef (r.name ++ "_q"))).val * modulus + (σ r).val < p

/-- Where a block takes a remainder, both reservations are kept. -/
def Block.RemainderBounded (σ : Ref → ZMod p) (b : Block) : Prop :=
  b.RemainderNarrow σ ∧ b.RemainderUnwrapped σ

/-! ## Library templates -/

/-- The output of a hash is determined by its inputs. -/
theorem poseidon_eq_of_holds {inputs : Nat} {c : Ref}
    (hσ : (Template.poseidon inputs).Holds hash σ c)
    (hτ : (Template.poseidon inputs).Holds hash τ c)
    (h : ∀ k < inputs, σ ((c.field "inputs").atPlace k) = τ ((c.field "inputs").atPlace k)) :
    σ (c.field "out") = τ (c.field "out") := by
  -- the hash is a function of the list of its inputs
  have hinputs : ((List.range inputs).map fun k => σ ((c.field "inputs").atPlace k)) =
      (List.range inputs).map fun k => τ ((c.field "inputs").atPlace k) :=
    List.map_congr_left fun k hk => h k (List.mem_range.1 hk)
  rw [Template.Holds, hinputs] at hσ
  exact hσ.trans hτ.symm

variable [Fact p.Prime]

/-- Two assignments that keep a block, outside of the reservations. -/
structure Block.Keeps (hash : List (ZMod p) → ZMod p) (σ τ : Ref → ZMod p) (b : Block) : Prop where
  /-- The first assignment keeps the constraints. -/
  left : b.Holds hash σ
  /-- The second assignment keeps the constraints. -/
  right : b.Holds hash τ
  /-- No quotient is taken of zero by zero. -/
  quotient : b.QuotientDefined σ
  /-- Remainders are in bounds in the first assignment. -/
  remainder_left : b.RemainderBounded σ
  /-- Remainders are in bounds in the second assignment. -/
  remainder_right : b.RemainderBounded τ

/-- The templates that compare two numbers of so many bits that the field has room for them. -/
def Template.IsComparison : Template → Prop
  | greaterThan n | lessThan n | greaterEqThan n | lessEqThan n => n ≤ maxComparatorBits
  | isEqual => True
  | num2Bits _ | poseidon _ | multiMux1 _ => False

/-- The output of a comparison is determined by its inputs. -/
theorem Template.IsComparison.eq_of_holds {template : Template} (h : template.IsComparison)
    (hp : 2 ^ (maxComparatorBits + 1) < p) {c : Ref} (hσ : template.Holds hash σ c)
    (hτ : template.Holds hash τ c)
    (h0 : σ ((c.field "in").atPlace 0) = τ ((c.field "in").atPlace 0))
    (h1 : σ ((c.field "in").atPlace 1) = τ ((c.field "in").atPlace 1)) :
    σ (c.field "out") = τ (c.field "out") := by
  have hroom : ∀ n, n ≤ maxComparatorBits → 2 ^ (n + 1) < p := fun n hn =>
    (Nat.pow_le_pow_right Nat.two_pos (Nat.succ_le_succ hn)).trans_lt hp
  cases template with
  | isEqual =>
    rw [Template.Holds, h0, h1] at hσ
    exact hσ.trans hτ.symm
  | num2Bits n => exact h.elim
  | poseidon n => exact h.elim
  | multiMux1 n => exact h.elim
  | _ n =>
    rw [Template.Holds, h0, h1] at hσ
    exact hσ.eq_of_lt (hroom n h) hτ

/-- A signal is determined when the value that it is constrained to is. -/
theorem eq_of_constrain {statements : List Statement} {target : Ref} {value : Expr}
    {counter : Option ℕ} (hmem : .constrain target value ∈ statements)
    (hσ : ∀ s ∈ statements, s.Holds hash σ counter) (hτ : ∀ s ∈ statements, s.Holds hash τ counter)
    (hvalue : value.eval σ counter = value.eval τ counter) :
    σ (target.atCount counter) = τ (target.atCount counter) :=
  calc σ (target.atCount counter) = value.eval σ counter := hσ _ hmem
    _ = value.eval τ counter := hvalue
    _ = τ (target.atCount counter) := (hτ _ hmem).symm

/-- The statements of a comparison determine its output from the two values that are compared. -/
theorem compare_agrees (template : Template) (h : template.IsComparison)
    (hp : 2 ^ (maxComparatorBits + 1) < p) {name : String} {left right : Expr}
    (hσ : ∀ s ∈ compare name template left right, s.Holds hash σ none)
    (hτ : ∀ s ∈ compare name template left right, s.Holds hash τ none)
    (hleft : left.eval σ none = left.eval τ none) (hright : right.eval σ none = right.eval τ none) :
    σ (outputOf name) = τ (outputOf name) := by
  refine h.eq_of_holds hp (hσ _ List.mem_cons_self) (hτ _ List.mem_cons_self) ?_ ?_
  · exact eq_of_constrain (List.mem_cons_of_mem _ List.mem_cons_self) hσ hτ hleft
  · exact eq_of_constrain (List.mem_cons_of_mem _ (List.mem_cons_of_mem _ List.mem_cons_self)) hσ hτ
      hright

/-! ## Gates -/

section

variable {heading : Option Heading} {name : String}

/-- An operation determines its result. -/
theorem operation_agrees (hp : 2 ^ (maxComparatorBits + 1) < p) {bits : Nat}
    (hbits : bits ≤ maxComparatorBits) {operator : Operator} {a b : Ref}
    (h : (Block.ofStatements heading
      (Fragment.operationStatements bits name a b operator)).Keeps hash σ τ)
    (ha : σ a = τ a) (hb : σ b = τ b) :
    σ (if operator.isComparison then outputOf name else signalRef name) =
      τ (if operator.isComparison then outputOf name else signalRef name) := by
  have hσ := Block.holds_ofStatements.1 h.left
  have hτ := Block.holds_ofStatements.1 h.right
  cases operator with
  | gt => exact compare_agrees (.greaterThan bits) hbits hp hσ hτ ha hb
  | lt => exact compare_agrees (.lessThan bits) hbits hp hσ hτ ha hb
  | eq => exact compare_agrees .isEqual trivial hp hσ hτ ha hb
  | divide =>
    -- nothing but the product with the divisor tells what the quotient is
    have hdefined := h.quotient _ _ _ (reading?_operation heading name bits .divide a b)
    have hmem : .equate (.binary .mul (signalRef name) b) a ∈
        Fragment.operationStatements bits name a b .divide := by simp [Fragment.operationStatements]
    have hσ : σ (signalRef name) * σ b = σ a := hσ _ hmem
    have hτ : τ (signalRef name) * τ b = τ a := hτ _ hmem
    -- were the divisor zero, the dividend would be zero as well
    have hdivisor : σ b ≠ 0 := by
      intro hzero
      rw [hzero, mul_zero] at hσ
      exact hdefined.elim (fun hne => hne hσ.symm) (fun hne => hne hzero)
    refine mul_right_cancel₀ hdivisor ?_
    calc σ (signalRef name) * σ b = σ a := hσ
      _ = τ a := ha
      _ = τ (signalRef name) * τ b := hτ.symm
      _ = τ (signalRef name) * σ b := by rw [hb]
  | _ =>
    refine eq_of_constrain (List.mem_cons_of_mem _ List.mem_cons_self) hσ hτ ?_
    simp only [Expr.eval, Ref.atCount, ha, hb]

/-- A range check determines its result. -/
theorem rangeCheck_agrees (hp : 2 ^ (maxComparatorBits + 1) < p) {bits : Nat}
    (hbits : bits ≤ maxComparatorBits) {min max : Nat} {value : Ref}
    (h : (Block.ofStatements heading
      (Fragment.rangeStatements bits name min max value)).Keeps hash σ τ)
    (hvalue : σ value = τ value) : σ (signalRef name) = τ (signalRef name) := by
  have hσ := Block.holds_ofStatements.1 h.left
  have hτ := Block.holds_ofStatements.1 h.right
  obtain ⟨habove, hbelow, hresult⟩ := rangeStatements_hold_iff.1 hσ
  obtain ⟨habove', hbelow', hresult'⟩ := rangeStatements_hold_iff.1 hτ
  -- the result is the product of two outcomes, each determined by the value
  rw [hresult, hresult', compare_agrees (.greaterEqThan bits) hbits hp habove habove' hvalue rfl,
    compare_agrees (.lessEqThan bits) hbits hp hbelow hbelow' hvalue rfl]

/-- A choice determines its result. -/
theorem conditional_agrees (hp : 2 ^ (maxComparatorBits + 1) < p) {condition : Nat}
    {selector chosen otherwise : Ref}
    (h : (Block.ofStatements heading
      (Fragment.conditionalStatements name condition selector chosen otherwise)).Keeps hash σ τ)
    (hselector : σ selector = τ selector) (hchosen : σ chosen = τ chosen)
    (hotherwise : σ otherwise = τ otherwise) : σ (signalRef name) = τ (signalRef name) := by
  have hσ := Block.holds_ofStatements.1 h.left
  have hτ := Block.holds_ofStatements.1 h.right
  simp only [Fragment.conditionalStatements, List.forall_mem_append] at hσ hτ
  have hsame := compare_agrees .isEqual trivial hp hσ.1 hτ.1 hselector rfl
  refine eq_of_constrain (List.mem_cons_of_mem _ List.mem_cons_self) hσ.2 hτ.2 ?_
  simp only [Expr.eval, Ref.atCount, hsame, hchosen, hotherwise]

/-- A hash determines its result. -/
theorem hash_agrees {values : List Ref}
    (h : (Block.ofStatements heading (Fragment.hashStatements name values)).Keeps hash σ τ)
    (hvalues : ∀ value ∈ values, σ value = τ value) : σ (outputOf name) = τ (outputOf name) := by
  have hσ := Block.holds_ofStatements.1 h.left
  have hτ := Block.holds_ofStatements.1 h.right
  refine poseidon_eq_of_holds (hσ _ List.mem_cons_self) (hτ _ List.mem_cons_self) fun k hk => ?_
  -- the input at a place is wired to the value at that place of the list
  have hwire : .constrain (((signalRef name).field "inputs").atPlace k) (.ref values[k]) ∈
      Fragment.hashStatements name values := by
    refine List.mem_cons_of_mem _ (List.mem_map.2 ⟨(values[k], k), ?_, rfl⟩)
    exact List.mk_mem_zipIdx_iff_getElem?.2 (List.getElem?_eq_getElem hk)
  exact eq_of_constrain hwire hσ hτ (hvalues _ (List.getElem_mem hk))

/-- A remainder that is in bounds is the remainder of the operand as a number. -/
theorem remainder_eq_of_holds (hp : 2 ^ (maxComparatorBits + 1) < p) {bits modulus : Nat}
    (hbits : bits ≤ maxComparatorBits) (hmodulus : modulus ≤ 2 ^ bits) {value : Ref}
    (h : (Block.ofStatements heading
      (Fragment.moduloStatements bits name modulus value)).Holds hash σ)
    (hbounded : (Block.ofStatements heading
      (Fragment.moduloStatements bits name modulus value)).RemainderBounded σ) :
    σ (signalRef name) = ((σ value).val % modulus : ℕ) := by
  have hroom : 2 ^ (bits + 1) < p :=
    (Nat.pow_le_pow_right Nat.two_pos (Nat.succ_le_succ hbits)).trans_lt hp
  have hreading := reading?_modulo heading name bits modulus value
  have hwidth := hbounded.1 _ _ _ _ hreading
  have hwrap := hbounded.2 _ _ _ _ hreading
  have hdivision := isDivision_of_hold (Block.holds_ofStatements.1 h)
  have hrest := hdivision.less.val_lt_of_one hroom hwidth hmodulus
  -- the bits of the quotient leave the sum below the order of the field, or it is known to be
  have hsum : (σ (signalRef (name ++ "_q"))).val * modulus + (σ (signalRef name)).val < p := by
    by_cases hfits : p < 2 ^ bits * modulus
    · exact hwrap hfits
    · exact (mul_add_lt (hdivision.quotient_lt hroom) hrest).trans_le (Nat.le_of_not_lt hfits)
  have hmod := (hdivision.val_eq_mod_iff hroom (Nat.zero_lt_of_lt hrest) hmodulus).2 ⟨hwidth, hsum⟩
  rw [← hmod.2, ZMod.natCast_zmod_val]

/-- A remainder determines its result. -/
theorem modulo_agrees (hp : 2 ^ (maxComparatorBits + 1) < p) {bits modulus : Nat}
    (hbits : bits ≤ maxComparatorBits) (hmodulus : modulus ≤ 2 ^ bits) {value : Ref}
    (h : (Block.ofStatements heading
      (Fragment.moduloStatements bits name modulus value)).Keeps hash σ τ)
    (hvalue : σ value = τ value) : σ (signalRef name) = τ (signalRef name) :=
  calc σ (signalRef name) = ((σ value).val % modulus : ℕ) :=
        remainder_eq_of_holds hp hbits hmodulus h.left h.remainder_left
    _ = ((τ value).val % modulus : ℕ) := by rw [hvalue]
    _ = τ (signalRef name) :=
        (remainder_eq_of_holds hp hbits hmodulus h.right h.remainder_right).symm

/-- A Merkle proof determines its result. -/
theorem merkleProof_agrees {elements indices : String} {depth : Nat} {leaf root : Ref}
    (h : (⟨heading, Fragment.merkleCommands name elements indices depth leaf root⟩ :
      Block).Keeps hash σ τ)
    (hleaf : σ leaf = τ leaf) (hroot : σ root = τ root)
    (helements : (⟨elements, some depth⟩ : InputDecl).Agrees σ τ)
    (hindices : (⟨indices, some depth⟩ : InputDecl).Agrees σ τ) :
    σ (outputOf name) = τ (outputOf name) := by
  have hclimb : climbOf hash σ leaf elements indices depth =
      climbOf hash τ leaf elements indices depth := by
    rw [climbOf, climbOf, hleaf]
    exact climb_congr helements hindices depth (Nat.le_refl depth)
  rw [outputOf_eq_of_merkleCommands h.left, outputOf_eq_of_merkleCommands h.right, hclimb, hroot]

end

/-- The modulus of a gate has no more bits than the comparators. -/
theorem Gate.IsOf.modulus_lt {config : Config} {kind : NodeKind} {modulus : Nat} {value : Ref}
    (h : (Gate.modulo modulus value).IsOf config kind) : modulus < 2 ^ config.comparatorBits := by
  obtain ⟨gadget, params, setting, -, hresolve, hsetting⟩ := h
  cases hsetting
  have hadmits := Gadget.admits_of_resolve hresolve
  obtain rfl := Gadget.eq_of_admits hadmits
  exact hadmits.2

/-- A gate determines its result from its operands. -/
theorem Gate.result_agrees {config : Config} (hc : config.Accepted)
    (hp : 2 ^ (maxComparatorBits + 1) < p) {node : Node} (names : NameTable) {gate : Gate}
    (hgate : gate.IsOf config node.kind)
    (hblocks : ∀ b ∈ (gate.fragment config node names).1.blocks, b.Keeps hash σ τ)
    (hinputs : ∀ d ∈ (gate.fragment config node names).1.inputs, d.Agrees σ τ)
    (hoperands : ∀ r ∈ gate.operands, σ r = τ r) {r : Ref}
    (h : (gate.fragment config node names).1.result = some r) : σ r = τ r := by
  have hbits := hc.bits.2
  cases gate with
  | input visibility label =>
    cases h
    exact hinputs _ List.mem_cons_self
  | output label value => cases h
  | operation operator a b =>
    cases h
    exact operation_agrees hp hbits (hblocks _ List.mem_cons_self)
      (hoperands a (by simp [operands])) (hoperands b (by simp [operands]))
  | rangeCheck min max value =>
    cases h
    exact rangeCheck_agrees hp hbits (hblocks _ List.mem_cons_self)
      (hoperands value (by simp [operands]))
  | hash values =>
    cases h
    exact hash_agrees (hblocks _ List.mem_cons_self) hoperands
  | conditional condition selector chosen otherwise =>
    cases h
    exact conditional_agrees hp (hblocks _ List.mem_cons_self)
      (hoperands selector (by simp [operands])) (hoperands chosen (by simp [operands]))
      (hoperands otherwise (by simp [operands]))
  | merkleProof depth leaf root =>
    cases h
    exact merkleProof_agrees (hblocks _ List.mem_cons_self)
      (hoperands leaf (by simp [operands])) (hoperands root (by simp [operands]))
      (hinputs _ List.mem_cons_self) (hinputs _ (List.mem_cons_of_mem _ List.mem_cons_self))
  | modulo modulus value =>
    cases h
    exact modulo_agrees hp hbits hgate.modulus_lt.le (hblocks _ List.mem_cons_self)
      (hoperands value (by simp [operands]))

/-- A gate determines the output that it declares from its operands. -/
theorem Gate.output_agrees {config : Config} {node : Node} (names : NameTable) {gate : Gate}
    (hblocks : ∀ b ∈ (gate.fragment config node names).1.blocks, b.Keeps hash σ τ)
    (hoperands : ∀ r ∈ gate.operands, σ r = τ r) {name : String}
    (h : name ∈ (gate.fragment config node names).1.outputs) :
    σ (signalRef name) = τ (signalRef name) := by
  cases gate with
  | output label value =>
    cases List.mem_singleton.1 h
    have hblock := hblocks _ List.mem_cons_self
    exact eq_of_constrain List.mem_cons_self (Block.holds_ofStatements.1 hblock.left)
      (Block.holds_ofStatements.1 hblock.right) (hoperands value List.mem_cons_self)
  | _ => cases h

end CircuitGraph.Circom
