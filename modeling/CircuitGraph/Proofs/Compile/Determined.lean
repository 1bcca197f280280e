import CircuitGraph.Proofs.Circom.Agreement
import CircuitGraph.Proofs.Circom.Legible
import CircuitGraph.Proofs.Compile.Gating
import Mathlib.NumberTheory.Bertrand
import Mathlib.Tactic.NormNum

/-!
# Outputs are determined by inputs

Two assignments that keep all constraints of an emitted unit, and agree on its inputs, agree on its
outputs, with the two reservations of divisions. Each gate determines its result from its operands,
and the operands are results of gates before it: the argument is an induction along the emission
(`Emits.agrees`).

None of the reservations can be dropped. The graph `division` is emitted, and for each of them there
are two assignments that break no other one and diverge: they agree on the inputs, but not on the
outputs.
-/

namespace CircuitGraph.Circom

variable {p : ℕ} [Fact p.Prime] {hash : List (ZMod p) → ZMod p} {σ τ : Ref → ZMod p}

/-! ## The whole emission -/

/-- What two assignments agree on at any time of an emission. -/
structure Emission.Agrees (σ τ : Ref → ZMod p) (s : Emission) : Prop where
  /-- The assignments agree on every result. -/
  results : ∀ e ∈ s.results, σ e.2 = τ e.2
  /-- The assignments agree on every output. -/
  outputs : ∀ name ∈ s.fragments.flatMap Fragment.outputs, σ (signalRef name) = τ (signalRef name)

/-- Two assignments that keep what is emitted, outside of the reservations, agree on all results and
outputs when they agree on the inputs. -/
theorem Emits.agrees {config : Config} {index : Index} {vs : List Vertex} {s : Emission}
    (h : Emits config index vs s) (hc : config.Accepted) (hp : 2 ^ (maxComparatorBits + 1) < p)
    (hblocks : ∀ b ∈ s.fragments.flatMap Fragment.blocks, b.Keeps hash σ τ)
    (hinputs : ∀ d ∈ s.fragments.flatMap Fragment.inputs, d.Agrees σ τ) : s.Agrees σ τ := by
  induction h with
  | initial => exact ⟨nofun, nofun⟩
  | @step vs s v gate h hgate ih =>
    simp only [Emission.after, List.flatMap_append, List.flatMap_singleton,
      List.forall_mem_append] at hblocks hinputs
    have hprevious := ih hblocks.1 hinputs.1
    -- the operands are results of the vertices before, on which the assignments agree by induction
    have hoperands : ∀ r ∈ gate.operands, σ r = τ r := by
      intro r hr
      obtain ⟨position, hmem⟩ := Emission.mem_results_of_mem_operands hgate hr
      exact hprevious.results _ hmem
    have hisOf := (Gate.fits_of_ofNode hgate).isOf
    refine ⟨?_, ?_⟩
    · simp only [Emission.after]
      split
      · rename_i r hresult
        rw [List.forall_mem_cons]
        refine ⟨?_, hprevious.results⟩
        exact Gate.result_agrees hc hp s.names hisOf hblocks.2 hinputs.2 hoperands hresult
      · exact hprevious.results
    · simp only [Emission.after, List.flatMap_append, List.flatMap_singleton,
        List.forall_mem_append]
      exact ⟨hprevious.outputs, fun name hname =>
        Gate.output_agrees s.names hblocks.2 hoperands hname⟩

/-! ## The reservations -/

/-- Two assignments keep all constraints of a unit and agree on its inputs, but not on an output. -/
structure SourceUnit.Diverge (hash : List (ZMod p) → ZMod p) (σ τ : Ref → ZMod p) (u : SourceUnit) :
    Prop where
  /-- The first assignment keeps the constraints. -/
  left : u.Holds hash σ
  /-- The second assignment keeps the constraints. -/
  right : u.Holds hash τ
  /-- The assignments agree on every input. -/
  inputs : ∀ d ∈ u.inputs, d.Agrees σ τ
  /-- The assignments do not agree on some output. -/
  output : ∃ name ∈ u.outputs, σ (signalRef name) ≠ τ (signalRef name)

/-- A quotient and a remainder of one dividend. -/
def division : Graph where
  nodes :=
    [Exhibit.secret "a" "Dividend", Exhibit.secret "b" "Divisor", Exhibit.operation "c" .divide,
     Exhibit.output "d" .number "Quotient", Exhibit.gadget "e" .modulo [("modulus", "10")],
     Exhibit.output "f" .number "Remainder"]
  edges :=
    [Graph.wire "a" "c" "a", Graph.wire "b" "c" "b", Graph.wire "c" "d" "in",
     Graph.wire "a" "e" "in", Graph.wire "e" "f" "in"]

/-- The configuration with the widest comparators. -/
def widest : Config := { comparatorBits := maxComparatorBits }

namespace division

/-- The blocks that the division is emitted as. -/
def blocks (bits : Nat) : List Block :=
  [.ofStatements (some ⟨"n_c", "divide"⟩)
     (Fragment.operationStatements bits "n_c" (signalRef "dividend") (signalRef "divisor") .divide),
   .ofStatements none [.constrain (signalRef "quotient") (signalRef "n_c")],
   .ofStatements (some ⟨"n_e", "modulo"⟩)
     (Fragment.moduloStatements bits "n_e" 10 (signalRef "dividend")),
   .ofStatements none [.constrain (signalRef "remainder") (signalRef "n_e")]]

/-- The division passes validation, whether the comparators are wide or not. -/
theorem not_hasFatal {config : Config} (hconfig : config = {} ∨ config = widest) :
    hasFatal (division.validate config) = false := by
  refine Validation.hasFatal_validate_eq_false fun problem => ?_
  cases problem with
  | missingParameter =>
    rcases hconfig with rfl | rfl
    · rfl
    · rfl
  -- these checks search the graph, and searches are not unfolded by definition
  | cycleDetected | orphanNode | noOutputReachable => cbv
  | _ => rfl

/-- The unit of the division. -/
theorem eq_of_ofGraph {config : Config} (hconfig : config = {} ∨ config = widest) {u : SourceUnit}
    (h : u.OfGraph config division) :
    u.inputs = [⟨"dividend", none⟩, ⟨"divisor", none⟩] ∧ u.outputs = ["quotient", "remainder"] ∧
      u.blocks = blocks config.comparatorBits := by
  obtain ⟨order, horder, hu⟩ := h
  -- the nodes are listed in their linear order, and all of them feed an output
  have hlinear : division.linearize = .ok ⟨division.index, division.vertices⟩ := by cbv
  have hpruned : (LinearOrder.mk division.index division.vertices).pruned =
      ⟨division.index, division.vertices⟩ := by cbv
  have hemit : ((emitUnit config ⟨division.index, division.vertices⟩).map fun u =>
      (u.inputs, u.outputs, u.blocks)) =
        .ok ([⟨"dividend", none⟩, ⟨"divisor", none⟩], ["quotient", "remainder"],
          blocks config.comparatorBits) := by
    rcases hconfig with rfl | rfl
    · rfl
    · rfl
  cases hlinear.symm.trans horder
  rw [hpruned] at hu
  rw [hu, Except.map, Except.ok.injEq, Prod.mk.injEq, Prod.mk.injEq] at hemit
  exact hemit

/-- The values of the signals of the division: the dividend and the divisor, the quotient, the two
parts into which the dividend is taken apart, and whatever a signal has that no constraint reads. -/
def assign (dividend divisor quotient : ZMod p) (times : ℕ) (rest other : ZMod p) (r : Ref) :
    ZMod p :=
  match r.name, r.path with
  | "dividend", [] => dividend
  | "divisor", [] => divisor
  | "n_c", [] | "quotient", [] => quotient
  | "n_e_q", [] | "n_e_qbits", [.field "in"] => times
  | "n_e_qbits", [.field "out", .element (.fixed i)] => (times / 2 ^ i % 2 : ℕ)
  | "n_e", [] | "n_e_lt", [.field "in", .element (.fixed 0)] | "remainder", [] => rest
  | "n_e_lt", [.field "in", .element (.fixed 1)] => 10
  | "n_e_lt", [.field "out"] => 1
  | _, _ => other

section

variable {bits times : ℕ} {dividend divisor quotient rest other : ZMod p}

/-- The constraints are kept when the equations of the quotient and of the remainder hold, and when
the values have the bits that they need. -/
theorem holds_assign {slack : ℕ} (hquotient : quotient * divisor = dividend)
    (hsum : dividend = times * 10 + rest) (htimes : times < 2 ^ bits)
    (hrest : rest + 2 ^ bits - 10 = (slack : ZMod p)) (hslack : slack < 2 ^ bits) :
    ∀ b ∈ blocks bits, b.Holds hash (assign dividend divisor quotient times rest other) := by
  simp only [blocks, List.forall_mem_cons, Block.holds_ofStatements, Fragment.operationStatements,
    Fragment.moduloStatements, compare, List.cons_append, List.nil_append]
  refine ⟨⟨trivial, trivial, hquotient, List.forall_mem_nil _⟩, ⟨rfl, List.forall_mem_nil _⟩, ?_,
    ⟨rfl, List.forall_mem_nil _⟩, List.forall_mem_nil _⟩
  refine ⟨trivial, trivial, trivial, trivial, hsum, isBits_natCast htimes, rfl, ?_, rfl, ?_, ?_,
    List.forall_mem_nil _⟩
  · exact isLess_one hrest hslack
  · exact Nat.cast_ofNat.symm
  · exact Nat.cast_one.symm

/-- What is read off the blocks of the division. -/
theorem eq_of_reading {b : Block} (hb : b ∈ blocks bits) {reading : Reading}
    (h : b.reading? = some reading) :
    reading = ⟨signalRef "n_c", .divide, [signalRef "dividend", signalRef "divisor"]⟩ ∨
      reading = ⟨signalRef "n_e", .remainder bits 10, [signalRef "dividend"]⟩ := by
  simp only [blocks, List.mem_cons, List.not_mem_nil, or_false] at hb
  rcases hb with rfl | rfl | rfl | rfl
  · rw [reading?_operation] at h
    exact .inl (Option.some.inj h).symm
  · rw [reading?_output] at h
    cases h
  · rw [reading?_modulo] at h
    exact .inr (Option.some.inj h).symm
  · rw [reading?_output] at h
    cases h

/-- A quotient by something else than zero is defined. -/
theorem quotientDefined (h : divisor ≠ 0) :
    ∀ b ∈ blocks bits, b.QuotientDefined (assign dividend divisor quotient times rest other) := by
  intro b hb r x y hreading
  rcases eq_of_reading hb hreading with heq | heq
  · cases heq
    exact .inr h
  · cases heq

/-- The remainder has no more bits than the comparators when its value has not. -/
theorem remainderNarrow (h : rest.val < 2 ^ bits) :
    ∀ b ∈ blocks bits, b.RemainderNarrow (assign dividend divisor quotient times rest other) := by
  intro b hb r width modulus x hreading
  rcases eq_of_reading hb hreading with heq | heq
  · cases heq
  · cases heq
    exact h

/-- The sum cannot exceed the order of the field when the comparators are narrow enough. -/
theorem remainderUnwrapped (h : 2 ^ bits * 10 ≤ p) :
    ∀ b ∈ blocks bits,
      b.RemainderUnwrapped (assign dividend divisor quotient times rest other) := by
  intro b hb r width modulus x hreading hwrap
  rcases eq_of_reading hb hreading with heq | heq
  · cases heq
  · cases heq
    exact absurd hwrap (Nat.not_lt.2 h)

/-- The constraints are kept when the rest is a digit. -/
theorem holds_digit {digit : ℕ} (hdigit : digit < 10) (hbits : 10 ≤ 2 ^ bits)
    (hquotient : quotient * divisor = dividend) (hsum : dividend = times * 10 + digit)
    (htimes : times < 2 ^ bits) :
    ∀ b ∈ blocks bits,
      b.Holds hash (assign dividend divisor quotient times (digit : ZMod p) other) := by
  have hslack : digit + 2 ^ bits - 10 < 2 ^ bits := by omega
  refine holds_assign hquotient hsum htimes ?_ hslack
  rw [Nat.cast_sub (Nat.le_add_left_of_le hbits), Nat.cast_add, Nat.cast_pow, Nat.cast_ofNat,
    Nat.cast_ofNat]

/-- A rest that is a digit has no more bits than the comparators. -/
theorem remainderNarrow_digit {digit : ℕ} (hdigit : digit < 10) (hbits : 10 ≤ 2 ^ bits)
    (hp : 10 ≤ p) : ∀ b ∈ blocks bits,
      b.RemainderNarrow (assign dividend divisor quotient times (digit : ZMod p) other) := by
  refine remainderNarrow ?_
  rw [ZMod.val_natCast_of_lt (hdigit.trans_le hp)]
  exact hdigit.trans_le hbits

/-- A rest that is a digit is in bounds when the comparators are narrow enough. -/
theorem remainderBounded_digit {digit : ℕ} (hdigit : digit < 10) (hbits : 10 ≤ 2 ^ bits)
    (hroom : 2 ^ bits * 10 ≤ p) : ∀ b ∈ blocks bits,
      b.RemainderBounded (assign dividend divisor quotient times (digit : ZMod p) other) := by
  have hp : 10 ≤ p := (Nat.le_mul_of_pos_left 10 (Nat.two_pow_pos bits)).trans hroom
  intro b hb
  exact ⟨remainderNarrow_digit hdigit hbits hp b hb, remainderUnwrapped hroom b hb⟩

/-- Two ways to take the same dividend apart diverge. -/
theorem diverge {config : Config} (hconfig : config = {} ∨ config = widest) {u : SourceUnit}
    (hu : u.OfGraph config division) {quotient' rest' : ZMod p} {times' : ℕ}
    (hσ : ∀ b ∈ blocks config.comparatorBits,
      b.Holds hash (assign dividend divisor quotient times rest other))
    (hτ : ∀ b ∈ blocks config.comparatorBits,
      b.Holds hash (assign dividend divisor quotient' times' rest' other))
    (hne : quotient ≠ quotient' ∨ rest ≠ rest') :
    u.Diverge hash (assign dividend divisor quotient times rest other)
      (assign dividend divisor quotient' times' rest' other) := by
  obtain ⟨hinputs, houtputs, hblocks⟩ := eq_of_ofGraph hconfig hu
  refine ⟨?_, ?_, ?_, ?_⟩
  · rw [SourceUnit.Holds, hblocks]
    exact hσ
  · rw [SourceUnit.Holds, hblocks]
    exact hτ
  · rw [hinputs, List.forall_mem_cons, List.forall_mem_cons]
    exact ⟨rfl, rfl, nofun⟩
  · rw [houtputs]
    rcases hne with hne | hne
    · exact ⟨"quotient", List.mem_cons_self, hne⟩
    · exact ⟨"remainder", List.mem_cons_of_mem _ List.mem_cons_self, hne⟩

end

variable {u : SourceUnit}

/-- A quotient of zero by zero may be anything. -/
theorem diverge_quotient (hp : 2 ^ 253 < p) (hu : u.OfGraph {} division)
    (hash : List (ZMod p) → ZMod p) :
    ∃ σ τ, u.Diverge hash σ τ ∧ ∀ b ∈ u.blocks, b.RemainderBounded σ ∧ b.RemainderBounded τ := by
  have hten : 10 ≤ 2 ^ 32 := by norm_num
  have hzero : (0 : ℕ) < 10 := by norm_num
  refine ⟨assign 0 0 0 0 ((0 : ℕ) : ZMod p) 0, assign 0 0 1 0 ((0 : ℕ) : ZMod p) 0, ?_, ?_⟩
  -- the product with the divisor is zero, whatever the quotient
  · refine diverge (.inl rfl) hu ?_ ?_ (.inl zero_ne_one)
    · exact holds_digit hzero hten (zero_mul 0) (by norm_num) (by norm_num)
    · exact holds_digit hzero hten (mul_zero 1) (by norm_num) (by norm_num)
  · rw [(eq_of_ofGraph (.inl rfl) hu).2.2]
    have hroom : 2 ^ 32 * 10 ≤ p := by omega
    intro b hb
    exact ⟨remainderBounded_digit hzero hten hroom b hb,
      remainderBounded_digit hzero hten hroom b hb⟩

/-- The remainder of seven by ten can be seven, with the quotient zero, or three below zero, with
the quotient one. -/
theorem diverge_below (hp : 2 ^ 253 < p) (hu : u.OfGraph {} division)
    (hash : List (ZMod p) → ZMod p) :
    ∃ σ τ, u.Diverge hash σ τ ∧ ∀ b ∈ u.blocks,
      b.QuotientDefined σ ∧ b.RemainderUnwrapped σ ∧ b.RemainderUnwrapped τ := by
  have hten : 10 ≤ 2 ^ 32 := by norm_num
  have hseven : (7 : ℕ) < 10 := by norm_num
  have hne : ((7 : ℕ) : ZMod p) ≠ -3 := by
    intro heq
    have hten : ((10 : ℕ) : ZMod p) = 0 :=
      calc ((10 : ℕ) : ZMod p) = ((7 : ℕ) : ZMod p) + 3 := by norm_num
        _ = 0 := by rw [heq, neg_add_cancel]
    have hle := Nat.le_of_dvd (by norm_num) ((ZMod.natCast_eq_zero_iff 10 p).1 hten)
    omega
  refine ⟨assign 7 1 7 0 ((7 : ℕ) : ZMod p) 0, assign 7 1 7 1 (-3) 0, ?_, ?_⟩
  · refine diverge (.inl rfl) hu ?_ ?_ (.inr hne)
    · exact holds_digit hseven hten (mul_one 7) (by norm_num) (by norm_num)
    -- seen from the power of two, a small negative number is less than ten as well
    · have hslack : (-3 : ZMod p) + 2 ^ 32 - 10 = ((2 ^ 32 - 13 : ℕ) : ZMod p) := by norm_num
      exact holds_assign (mul_one 7) (by norm_num) (by norm_num) hslack (by norm_num)
  · rw [(eq_of_ofGraph (.inl rfl) hu).2.2]
    have hroom : 2 ^ 32 * 10 ≤ p := by omega
    intro b hb
    exact ⟨quotientDefined one_ne_zero b hb, remainderUnwrapped hroom b hb,
      remainderUnwrapped hroom b hb⟩

/-- With wide comparators zero may be taken apart as the order of the field. -/
theorem diverge_around (hp : 2 ^ 253 < p) (hp' : p ≤ 2 * 2 ^ 253) (hu : u.OfGraph widest division)
    (hash : List (ZMod p) → ZMod p) :
    ∃ σ τ, u.Diverge hash σ τ ∧ ∀ b ∈ u.blocks,
      b.QuotientDefined σ ∧ b.RemainderNarrow σ ∧ b.RemainderNarrow τ := by
  have hten : 10 ≤ 2 ^ maxComparatorBits := by norm_num [maxComparatorBits]
  have hdigit : p % 10 < 10 := Nat.mod_lt p (by norm_num)
  have hzero : (0 : ℕ) < 10 := by norm_num
  have hne : ((0 : ℕ) : ZMod p) ≠ ((p % 10 : ℕ) : ZMod p) := by
    rw [Ne, ZMod.natCast_eq_natCast_iff', Nat.zero_mod, Nat.mod_eq_of_lt (by omega)]
    -- the order of the field is prime, so it is no multiple of ten
    intro hmod
    have hten := (Nat.Prime.eq_one_or_self_of_dvd Fact.out 10 (Nat.dvd_of_mod_eq_zero hmod.symm))
    omega
  -- the order of the field is zero in the field
  have hsum : (0 : ZMod p) = ((p / 10 : ℕ) : ZMod p) * 10 + ((p % 10 : ℕ) : ZMod p) :=
    calc (0 : ZMod p) = (p : ZMod p) := (ZMod.natCast_self p).symm
      _ = ((p / 10 * 10 + p % 10 : ℕ) : ZMod p) := by rw [Nat.div_add_mod']
      _ = ((p / 10 : ℕ) : ZMod p) * 10 + ((p % 10 : ℕ) : ZMod p) := by
        rw [Nat.cast_add, Nat.cast_mul, Nat.cast_ofNat]
  refine ⟨assign 0 1 0 0 ((0 : ℕ) : ZMod p) 0,
    assign 0 1 0 (p / 10) ((p % 10 : ℕ) : ZMod p) 0, ?_, ?_⟩
  · refine diverge (.inr rfl) hu ?_ ?_ (.inr hne)
    · exact holds_digit hzero hten (mul_one 0) (by norm_num) (by norm_num)
    · have htimes : p / 10 < 2 ^ maxComparatorBits := by
        norm_num [maxComparatorBits]
        omega
      exact holds_digit hdigit hten (mul_one 0) hsum htimes
  · rw [(eq_of_ofGraph (.inr rfl) hu).2.2]
    intro b hb
    exact ⟨quotientDefined one_ne_zero b hb, remainderNarrow_digit hzero hten (by omega) b hb,
      remainderNarrow_digit hdigit hten (by omega) b hb⟩

end division

/-! ## The whole compilation -/

/-- The outputs of an emitted circuit are determined by its inputs, as long as no quotient is taken
of zero by zero and remainders are in bounds. -/
theorem compile_determined (config : Config) (hc : config.check = .ok ()) (g : Graph)
    (h : (g.compile config).isEmitted = true) :
    ∃ u : SourceUnit, u.OfGraph config g ∧ (g.compile config).code = u.text ∧
      u.body.map Line.text = u.bodyLines ∧ u.ReadsBack ∧
      ∀ (p : ℕ) [Fact p.Prime], 2 ^ 253 < p →
        ∀ (hash : List (ZMod p) → ZMod p) (σ τ : Ref → ZMod p),
          u.Holds hash σ → u.Holds hash τ → (∀ d ∈ u.inputs, d.Agrees σ τ) →
            (∀ b ∈ u.blocks, b.QuotientDefined σ) →
            (∀ b ∈ u.blocks, b.RemainderBounded σ ∧ b.RemainderBounded τ) →
              ∀ name ∈ u.outputs, σ (signalRef name) = τ (signalRef name) := by
  have hc := Config.accepted_of_check hc
  obtain ⟨u, hu, htext⟩ := Graph.exists_unit hc ((Graph.isEmitted_compile hc).1 h)
  obtain ⟨order, horder, hemit⟩ := hu
  refine ⟨u, ⟨order, horder, hemit⟩, htext, SourceUnit.map_text_body u, readsBack_of_emitUnit hemit,
    ?_⟩
  intro p _ hp hash σ τ hσ hτ hinputs hquotient hremainder
  -- the unit consists of what the vertices of the order have been emitted as
  obtain ⟨s, hs, rfl⟩ := emitUnit_eq_ok.1 hemit
  have hkeeps : ∀ b ∈ s.fragments.flatMap Fragment.blocks, b.Keeps hash σ τ := fun b hb =>
    { left := hσ b hb
      right := hτ b hb
      quotient := hquotient b hb
      remainder_left := (hremainder b hb).1
      remainder_right := (hremainder b hb).2 }
  exact (hs.agrees hc hp hkeeps hinputs).outputs

/-- The outputs of the division are determined where seven is divided by one, also when signals that
no constraint reads have other values. -/
theorem compile_determined_division :
    ({} : Config).check = .ok () ∧ (division.compile {}).isEmitted = true ∧
      ∃ u : SourceUnit, u.OfGraph {} division ∧ (division.compile {}).code = u.text ∧
        u.body.map Line.text = u.bodyLines ∧ u.ReadsBack ∧
        ∃ (p : ℕ) (_ : Fact p.Prime), 2 ^ 253 < p ∧
          ∀ hash : List (ZMod p) → ZMod p, ∃ σ τ : Ref → ZMod p, σ ≠ τ ∧
            u.Holds hash σ ∧ u.Holds hash τ ∧ (∀ d ∈ u.inputs, d.Agrees σ τ) ∧
              (∀ b ∈ u.blocks, b.QuotientDefined σ) ∧
              (∀ b ∈ u.blocks, b.RemainderBounded σ ∧ b.RemainderBounded τ) ∧
                ∀ name ∈ u.outputs, σ (signalRef name) = τ (signalRef name) := by
  have hemitted := (Graph.isEmitted_compile (Config.accepted_of_check rfl)).2
    (division.not_hasFatal (.inl rfl))
  obtain ⟨u, hu, htext, hbody, hreads, hdetermined⟩ := compile_determined {} rfl division hemitted
  obtain ⟨p, hp, hprime⟩ := Nat.exists_infinite_primes (2 ^ 253 + 1)
  have hfact : Fact p.Prime := ⟨hprime⟩
  refine ⟨rfl, hemitted, u, hu, htext, hbody, hreads, p, hfact, hp, fun hash => ?_⟩
  have hten : 10 ≤ 2 ^ 32 := by norm_num
  have hseven : (7 : ℕ) < 10 := by norm_num
  obtain ⟨hinputs, -, hblocks⟩ := division.eq_of_ofGraph (.inl rfl) hu
  let σ (other : ZMod p) : Ref → ZMod p := division.assign 7 1 7 0 ((7 : ℕ) : ZMod p) other
  have hne : σ 0 ≠ σ 1 := fun heq => zero_ne_one (congrFun heq (signalRef "unread"))
  have hσ (other : ZMod p) : u.Holds hash (σ other) := by
    rw [SourceUnit.Holds, hblocks]
    exact division.holds_digit hseven hten (mul_one 7) (by norm_num) (by norm_num)
  have hagrees : ∀ d ∈ u.inputs, d.Agrees (σ 0) (σ 1) := by
    rw [hinputs, List.forall_mem_cons, List.forall_mem_cons]
    exact ⟨rfl, rfl, nofun⟩
  have hquotient : ∀ b ∈ u.blocks, b.QuotientDefined (σ 0) := by
    rw [hblocks]
    exact division.quotientDefined one_ne_zero
  have hbounded (other : ZMod p) : ∀ b ∈ u.blocks, b.RemainderBounded (σ other) := by
    rw [hblocks]
    have hroom : 2 ^ 32 * 10 ≤ p := by omega
    exact division.remainderBounded_digit hseven hten hroom
  have hremainder : ∀ b ∈ u.blocks, b.RemainderBounded (σ 0) ∧ b.RemainderBounded (σ 1) :=
    fun b hb => ⟨hbounded 0 b hb, hbounded 1 b hb⟩
  exact ⟨σ 0, σ 1, hne, hσ 0, hσ 1, hagrees, hquotient, hremainder,
    hdetermined p hp hash (σ 0) (σ 1) (hσ 0) (hσ 1) hagrees hquotient hremainder⟩

/-- None of the reservations can be dropped. -/
theorem division_not_determined :
    ({} : Config).check = .ok () ∧ (division.compile {}).isEmitted = true ∧
    widest.check = .ok () ∧ (division.compile widest).isEmitted = true ∧
      ∃ (p : ℕ) (_ : Fact p.Prime), 2 ^ 253 < p ∧ ∀ hash : List (ZMod p) → ZMod p,
        (∃ u : SourceUnit, u.OfGraph {} division ∧ (division.compile {}).code = u.text ∧
          (∃ σ τ, u.Diverge hash σ τ ∧
            ∀ b ∈ u.blocks, b.RemainderBounded σ ∧ b.RemainderBounded τ) ∧
          ∃ σ τ, u.Diverge hash σ τ ∧ ∀ b ∈ u.blocks,
            b.QuotientDefined σ ∧ b.RemainderUnwrapped σ ∧ b.RemainderUnwrapped τ) ∧
        ∃ u : SourceUnit, u.OfGraph widest division ∧ (division.compile widest).code = u.text ∧
          ∃ σ τ, u.Diverge hash σ τ ∧ ∀ b ∈ u.blocks,
            b.QuotientDefined σ ∧ b.RemainderNarrow σ ∧ b.RemainderNarrow τ := by
  have hnarrow : ({} : Config).Accepted := Config.accepted_of_check rfl
  have hwide : widest.Accepted := Config.accepted_of_check rfl
  have hfatal := division.not_hasFatal (.inl rfl)
  have hfatal' := division.not_hasFatal (.inr rfl)
  obtain ⟨u, hu, htext⟩ := Graph.exists_unit hnarrow hfatal
  obtain ⟨w, hw, htext'⟩ := Graph.exists_unit hwide hfatal'
  obtain ⟨p, hprime, hp, hp'⟩ := Nat.exists_prime_lt_and_le_two_mul (2 ^ 253) (by norm_num)
  have hfact : Fact p.Prime := ⟨hprime⟩
  have hemitted := (Graph.isEmitted_compile hnarrow).2 hfatal
  have hemitted' := (Graph.isEmitted_compile hwide).2 hfatal'
  refine ⟨rfl, hemitted, rfl, hemitted', p, hfact, hp, fun hash => ?_⟩
  refine ⟨⟨u, hu, htext, ?_, ?_⟩, w, hw, htext', ?_⟩
  · exact division.diverge_quotient hp hu hash
  · exact division.diverge_below hp hu hash
  · exact division.diverge_around hp hp' hw hash

end CircuitGraph.Circom
