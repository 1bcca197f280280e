import CircuitGraph.Circom.Fragment
import CircuitGraph.Proofs.Circom.Constraint

/-!
# Statements that are kept

What the statements of each family say of an assignment, with declarations and assignments left out:
they constrain nothing. The statements of a remainder are a division in the field
(`isDivision_of_hold`). Those of a Merkle proof climb from the leaf, one level in each run of the
loop (`climb_step`), so by induction on the counter the levels are those of the climb
(`level_eq_climbOf`).
-/

namespace CircuitGraph.Circom

variable {p : ℕ}

/-- The entry of an array at a place. -/
def entry (name : String) (i : ℕ) : Ref := (signalRef name).atPlace i

/-- The hash on a level above a leaf: the hash below and the path element are hashed, the hash below
on the left where the path index is zero. -/
def climb (hash : List (ZMod p) → ZMod p) (leaf : ZMod p) (element index : ℕ → ZMod p) : ℕ → ZMod p
  | 0 => leaf
  | i + 1 =>
    if index i = 0 then hash [climb hash leaf element index i, element i]
    else hash [element i, climb hash leaf element index i]

/-- A climb depends on the path below only. -/
theorem climb_congr {hash : List (ZMod p) → ZMod p} {leaf : ZMod p}
    {element element' index index' : ℕ → ZMod p} {depth : ℕ}
    (helement : ∀ i < depth, element i = element' i) (hindex : ∀ i < depth, index i = index' i) :
    ∀ i ≤ depth, climb hash leaf element index i = climb hash leaf element' index' i := by
  intro i
  induction i with
  | zero => exact fun _ => rfl
  | succ i ih =>
    intro hi
    rw [climb, climb, helement i hi, hindex i hi, ih (Nat.le_of_succ_le hi)]

/-- The hash on a level above the leaf that an assignment gives to a Merkle proof. -/
def climbOf (hash : List (ZMod p) → ZMod p) (σ : Ref → ZMod p) (leaf : Ref)
    (elements indices : String) : ℕ → ZMod p :=
  climb hash (σ leaf) (fun i => σ (entry elements i)) (fun i => σ (entry indices i))

variable [Fact p.Prime] {hash : List (ZMod p) → ZMod p} {σ : Ref → ZMod p}

/-- An assignment keeps a block of statements when it keeps each of them. -/
theorem Block.holds_ofStatements {heading : Option Heading} {statements : List Statement} :
    (Block.ofStatements heading statements).Holds hash σ ↔
      ∀ s ∈ statements, s.Holds hash σ none := by
  simp only [Block.Holds, Block.ofStatements, List.forall_mem_map, Command.Holds]

/-! ## Comparisons -/

/-- The statements of a comparison are kept when the template is and its inputs are wired. -/
theorem compare_holds_iff {name : String} {template : Template} {left right : Expr} :
    (∀ s ∈ compare name template left right, s.Holds hash σ none) ↔
      template.Holds hash σ (signalRef name) ∧
        σ (((signalRef name).field "in").atPlace 0) = left.eval σ none ∧
        σ (((signalRef name).field "in").atPlace 1) = right.eval σ none := by
  simp only [compare, List.forall_mem_cons, List.not_mem_nil, false_implies, implies_true, and_true]
  rfl

/-- The statements of a comparison compare the two values. -/
theorem isLess_of_compare {bits : ℕ} {name : String} {left right : Expr}
    (h : ∀ s ∈ compare name (.lessThan bits) left right, s.Holds hash σ none) :
    IsLess bits (left.eval σ none) (right.eval σ none) (σ (outputOf name)) := by
  obtain ⟨hless, hleft, hright⟩ := compare_holds_iff.1 h
  rw [← hleft, ← hright]
  exact hless

/-- The statements of a range check are two comparisons and the product of their outcomes. -/
theorem rangeStatements_hold_iff {bits min max : ℕ} {name : String} {value : Ref} :
    (∀ s ∈ Fragment.rangeStatements bits name min max value, s.Holds hash σ none) ↔
      (∀ s ∈ compare (name ++ "_ge") (.greaterEqThan bits) value (.const min),
        s.Holds hash σ none) ∧
      (∀ s ∈ compare (name ++ "_le") (.lessEqThan bits) value (.const max),
        s.Holds hash σ none) ∧
      σ (signalRef name) = σ (outputOf (name ++ "_ge")) * σ (outputOf (name ++ "_le")) := by
  rw [Fragment.rangeStatements, List.forall_mem_append, List.forall_mem_append, and_assoc]
  refine and_congr_right fun _ => and_congr_right fun _ => ?_
  simp only [List.forall_mem_cons, List.not_mem_nil, false_implies, implies_true, and_true]
  exact and_iff_right trivial

/-! ## Remainders -/

/-- The statements of a remainder are kept when the equation, the bits of the quotient and the
comparison are. -/
theorem moduloStatements_hold_iff {bits modulus : ℕ} {name : String} {value : Ref} :
    (∀ s ∈ Fragment.moduloStatements bits name modulus value, s.Holds hash σ none) ↔
      σ value = σ (signalRef (name ++ "_q")) * modulus + σ (signalRef name) ∧
      (Template.num2Bits bits).Holds hash σ (signalRef (name ++ "_qbits")) ∧
      σ ((signalRef (name ++ "_qbits")).field "in") = σ (signalRef (name ++ "_q")) ∧
      (∀ s ∈ compare (name ++ "_lt") (.lessThan bits) (signalRef name) (.const modulus),
        s.Holds hash σ none) ∧
      σ (outputOf (name ++ "_lt")) = ((1 : ℕ) : ZMod p) := by
  simp only [Fragment.moduloStatements, List.forall_mem_append, List.forall_mem_cons,
    List.not_mem_nil, false_implies, implies_true, and_true, and_assoc]
  -- what is declared or assigned constrains nothing
  exact ⟨fun ⟨_, _, _, _, h⟩ => h, fun h => ⟨trivial, trivial, trivial, trivial, h⟩⟩

/-- The statements of a remainder constrain its signals to a division. -/
theorem isDivision_of_hold {bits modulus : ℕ} {name : String} {value : Ref}
    (h : ∀ s ∈ Fragment.moduloStatements bits name modulus value, s.Holds hash σ none) :
    IsDivision bits modulus (σ value) (σ (signalRef (name ++ "_q"))) (σ (signalRef name)) := by
  obtain ⟨hsum, hbits, hin, hcompare, hone⟩ := moduloStatements_hold_iff.1 h
  have hbits : IsBits bits (σ ((signalRef (name ++ "_qbits")).field "in")) _ := hbits
  have hless := isLess_of_compare hcompare
  rw [hone, Nat.cast_one] at hless
  exact ⟨hsum, ⟨_, hin ▸ hbits⟩, hless⟩

/-! ## Merkle proofs -/

/-- A bit selects one of two values. -/
theorem add_mul_sub_eq {x y s : ZMod p} (h : s = 0 ∨ s = 1) :
    x + s * (y - x) = if s = 0 then x else y := by
  rcases h with rfl | rfl
  · rw [if_pos rfl, zero_mul, add_zero]
  · rw [if_neg one_ne_zero, one_mul, add_sub_cancel]

/-- The statements of a level are kept when the index is a bit, the multiplexer and the hash are
kept, and everything is wired. -/
theorem merkleLevel_hold_iff {level mux node elements indices : String} {i : ℕ} :
    (∀ s ∈ Fragment.merkleLevel (signalRef level) (signalRef mux) (signalRef node)
      (signalRef elements) (signalRef indices), s.Holds hash σ (some i)) ↔
      σ (entry indices i) * (((1 : ℕ) : ZMod p) - σ (entry indices i)) = ((0 : ℕ) : ZMod p) ∧
      (Template.multiMux1 2).Holds hash σ (entry mux i) ∧
      σ ((((entry mux i).field "c").atPlace 0).atPlace 0) = σ (entry level i) ∧
      σ ((((entry mux i).field "c").atPlace 0).atPlace 1) = σ (entry elements i) ∧
      σ ((((entry mux i).field "c").atPlace 1).atPlace 0) = σ (entry elements i) ∧
      σ ((((entry mux i).field "c").atPlace 1).atPlace 1) = σ (entry level i) ∧
      σ ((entry mux i).field "s") = σ (entry indices i) ∧
      (Template.poseidon 2).Holds hash σ (entry node i) ∧
      σ (((entry node i).field "inputs").atPlace 0) = σ (((entry mux i).field "out").atPlace 0) ∧
      σ (((entry node i).field "inputs").atPlace 1) = σ (((entry mux i).field "out").atPlace 1) ∧
      σ (entry level (i + 1)) = σ ((entry node i).field "out") := by
  simp only [Fragment.merkleLevel, List.forall_mem_cons, List.not_mem_nil, false_implies,
    implies_true, and_true]
  rfl

/-- One level of a Merkle proof is one step of the climb, and its path index is a bit. -/
theorem climb_step {level mux node elements indices : String} {i : ℕ}
    (h : ∀ s ∈ Fragment.merkleLevel (signalRef level) (signalRef mux) (signalRef node)
      (signalRef elements) (signalRef indices), s.Holds hash σ (some i)) :
    (σ (entry indices i) = 0 ∨ σ (entry indices i) = 1) ∧
      σ (entry level (i + 1)) =
        if σ (entry indices i) = 0 then hash [σ (entry level i), σ (entry elements i)]
        else hash [σ (entry elements i), σ (entry level i)] := by
  obtain ⟨hindex, hmux, h00, h01, h10, h11, hs, hnode, h0, h1, hnext⟩ := merkleLevel_hold_iff.1 h
  have hbit : σ (entry indices i) = 0 ∨ σ (entry indices i) = 1 := by
    rw [Nat.cast_one, Nat.cast_zero, mul_eq_zero, sub_eq_zero] at hindex
    exact hindex.imp_right Eq.symm
  have hleft := hmux 0 Nat.two_pos
  rw [h00, h01, hs, add_mul_sub_eq hbit] at hleft
  have hright := hmux 1 Nat.one_lt_two
  rw [h10, h11, hs, add_mul_sub_eq hbit] at hright
  have hinputs : (List.range 2).map (fun k => σ (((entry node i).field "inputs").atPlace k)) =
      [σ (((entry mux i).field "out").atPlace 0), σ (((entry mux i).field "out").atPlace 1)] := by
    rw [← h0, ← h1]
    rfl
  rw [Template.Holds, hinputs, hleft, hright] at hnode
  refine ⟨hbit, hnext.trans (hnode.trans ?_)⟩
  split_ifs
  · rfl
  · rfl

section

variable {name elements indices : String} {depth : ℕ} {leaf root : Ref}

/-- The commands of a Merkle proof are kept when the first level is the leaf, every level is kept,
and the comparison with the root is. -/
theorem merkleCommands_hold_iff :
    (∀ c ∈ Fragment.merkleCommands name elements indices depth leaf root, c.Holds hash σ) ↔
      σ (entry (name ++ "_level") 0) = σ leaf ∧
      (∀ i < depth, ∀ s ∈ Fragment.merkleLevel (signalRef (name ++ "_level"))
        (signalRef (name ++ "_mux")) (signalRef (name ++ "_hash")) (signalRef elements)
        (signalRef indices), s.Holds hash σ (some i)) ∧
      ∀ s ∈ compare name .isEqual (entry (name ++ "_level") depth) root, s.Holds hash σ none := by
  simp only [Fragment.merkleCommands, List.forall_mem_append, List.forall_mem_cons,
    List.forall_mem_map, List.not_mem_nil, false_implies, implies_true, and_true]
  exact ⟨fun ⟨⟨_, _, _, h⟩, h'⟩ => ⟨h, h'⟩, fun ⟨h, h'⟩ => ⟨⟨trivial, trivial, trivial, h⟩, h'⟩⟩

/-- The levels are those of the climb from the leaf. -/
theorem level_eq_climbOf
    (h : ∀ c ∈ Fragment.merkleCommands name elements indices depth leaf root, c.Holds hash σ) :
    ∀ i ≤ depth, σ (entry (name ++ "_level") i) = climbOf hash σ leaf elements indices i := by
  obtain ⟨hstart, hloop, -⟩ := merkleCommands_hold_iff.1 h
  intro i
  induction i with
  | zero => exact fun _ => hstart
  | succ i ih =>
    intro hi
    rw [(climb_step (hloop i hi)).2, ih (Nat.le_of_succ_le hi)]
    rfl

/-- The result of a Merkle proof tells whether the climb ends at the root. -/
theorem outputOf_eq_of_merkleCommands
    (h : ∀ c ∈ Fragment.merkleCommands name elements indices depth leaf root, c.Holds hash σ) :
    σ (outputOf name) = if σ root = climbOf hash σ leaf elements indices depth then 1 else 0 := by
  obtain ⟨hequal, hleft, hright⟩ := compare_holds_iff.1 (merkleCommands_hold_iff.1 h).2.2
  rw [Template.Holds, hleft, hright] at hequal
  change σ (outputOf name) = if σ (entry (name ++ "_level") depth) = σ root then 1 else 0 at hequal
  rw [hequal, level_eq_climbOf h depth (Nat.le_refl depth)]
  exact if_congr eq_comm rfl rfl

end

end CircuitGraph.Circom
