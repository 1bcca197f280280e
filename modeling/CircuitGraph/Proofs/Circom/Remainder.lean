import CircuitGraph.Proofs.Circom.FieldOrder
import CircuitGraph.Proofs.Circom.Range

/-!
# Remainders

The quotient and the remainder of a division are assigned freely. They are constrained by the
equation of the division, by the bits of the quotient, and by a comparison of the remainder with the
modulus (`IsDivision`). The remainder itself has no bits to be counted, and this is what goes wrong:
the comparison is one of numbers of so many bits, so it is true of the elements just below zero as
well, and when the comparators are wide the sum may exceed the order of the field.

`Fragment.TakesRemainder` says that nothing else goes wrong. The result is the remainder exactly if
it has no more bits than are compared and the sum does not reach the order of the field; and the
constraints can be kept in this way. Both ways to leave the bounds do occur, in the field that
circuits are compiled for (`lastDigit_not_bounded`).
-/

namespace CircuitGraph.Circom

variable {p : ℕ}

/-- A fragment whose result is a remainder, when the constraints do not fail to say so. -/
structure Fragment.TakesRemainder (p : ℕ) [Fact p.Prime] (bits modulus : ℕ)
    (value quotient result : Ref) (f : Fragment) : Prop where
  /-- The quotient has no more bits than are compared. -/
  quotient_lt : ∀ (hash : List (ZMod p) → ZMod p) (σ : Ref → ZMod p),
    (∀ b ∈ f.blocks, b.Holds hash σ) → (σ quotient).val < 2 ^ bits
  /-- The result is less than the modulus, or so close below zero that the comparison is true. -/
  lt_or_le : ∀ (hash : List (ZMod p) → ZMod p) (σ : Ref → ZMod p),
    (∀ b ∈ f.blocks, b.Holds hash σ) →
      (σ result).val < modulus ∨ p + modulus ≤ (σ result).val + 2 ^ bits
  /-- The result is the remainder, and less than the modulus, exactly if it has no more bits than
  are compared and the sum is less than the order of the field. -/
  exact : ∀ (hash : List (ZMod p) → ZMod p) (σ : Ref → ZMod p),
    (∀ b ∈ f.blocks, b.Holds hash σ) →
      ((σ result).val < modulus ∧ (σ result).val = (σ value).val % modulus ↔
        (σ result).val < 2 ^ bits ∧ (σ quotient).val * modulus + (σ result).val < p)
  /-- A value whose quotient has so many bits can be divided: whatever the signals are that the
  fragment does not declare, those that it declares can be chosen, with the remainder as the
  result. -/
  complete : ∀ (hash : List (ZMod p) → ZMod p) (τ : Ref → ZMod p),
    (τ value).val < 2 ^ bits * modulus →
      ∃ σ : Ref → ZMod p, (∀ b ∈ f.blocks, b.Holds hash σ) ∧ σ value = τ value ∧
        (σ result).val = (τ value).val % modulus ∧ ∀ r, r.name ∉ f.declares → σ r = τ r

/-! ## Assignments -/

/-- An assignment in which the signals of a remainder have the values that belong to a quotient and
a rest. -/
def withDivision (τ : Ref → ZMod p) (name : String) (modulus times : ℕ) (rest : ZMod p) (r : Ref) :
    ZMod p :=
  if r.name = name ++ "_qbits" then
    match r.path with
    | [.field "out", .element (.fixed i)] => (times / 2 ^ i % 2 : ℕ)
    | _ => times
  else if r = signalRef (name ++ "_q") then times
  else if r = signalRef name then rest
  else withComparison τ (name ++ "_lt") rest modulus 1 r

section

variable {τ : Ref → ZMod p} {name : String} {modulus times : ℕ} {rest : ZMod p}

/-- The names of a remainder are distinct. -/
theorem ne_of_moduloSuffixes (name : String) :
    (name ≠ name ++ "_q" ∧ name ≠ name ++ "_qbits" ∧ name ≠ name ++ "_lt") ∧
      (name ++ "_q" ≠ name ++ "_qbits" ∧ name ++ "_q" ≠ name ++ "_lt") ∧
      name ++ "_qbits" ≠ name ++ "_lt" := by
  have hnodup := nodup_family areSuffixes_modulo.nodup name
  simpa only [family, moduloSuffixes, List.map_cons, List.map_nil, List.nodup_cons, List.mem_cons,
    List.not_mem_nil, or_false, not_or, List.nodup_nil, not_false_iff, and_true] using hnodup

/-- The quotient has its value. -/
theorem withDivision_quotient :
    withDivision τ name modulus times rest (signalRef (name ++ "_q")) = times := by
  have hbits : (signalRef (name ++ "_q")).name ≠ name ++ "_qbits" :=
    (ne_of_moduloSuffixes name).2.1.1
  rw [withDivision, if_neg hbits, if_pos rfl]

/-- The quotient has its value at the component that takes its bits. -/
theorem withDivision_bitsIn :
    withDivision τ name modulus times rest ((signalRef (name ++ "_qbits")).field "in") = times :=
  if_pos rfl

/-- The bits are those of the quotient. -/
theorem withDivision_bitsOut (i : ℕ) :
    withDivision τ name modulus times rest
      (((signalRef (name ++ "_qbits")).field "out").atPlace i) = (times / 2 ^ i % 2 : ℕ) :=
  if_pos rfl

/-- The result has its value. -/
theorem withDivision_result :
    withDivision τ name modulus times rest (signalRef name) = rest := by
  have hbits : (signalRef name).name ≠ name ++ "_qbits" := (ne_of_moduloSuffixes name).1.2.1
  have hq : signalRef name ≠ signalRef (name ++ "_q") := fun heq =>
    (ne_of_moduloSuffixes name).1.1 (congrArg Ref.name heq)
  rw [withDivision, if_neg hbits, if_neg hq, if_pos rfl]

/-- The signals of the comparison have the values that belong to it. -/
theorem withDivision_less {r : Ref} (h : r.name = name ++ "_lt") :
    withDivision τ name modulus times rest r =
      withComparison τ (name ++ "_lt") rest modulus 1 r := by
  obtain ⟨⟨-, -, hname⟩, ⟨-, hq⟩, hbits⟩ := ne_of_moduloSuffixes name
  have hne {other : String} (hother : other ≠ name ++ "_lt") : r.name ≠ other := fun heq =>
    hother (heq.symm.trans h)
  rw [withDivision, if_neg (hne hbits), if_neg (fun heq => hne hq (congrArg Ref.name heq)),
    if_neg (fun heq => hne hname (congrArg Ref.name heq))]

/-- Signals that do not belong to the remainder keep their values. -/
theorem withDivision_of_not_mem {r : Ref}
    (h : r.name ∉ [name ++ "_q", name, name ++ "_qbits", name ++ "_lt"]) :
    withDivision τ name modulus times rest r = τ r := by
  simp only [List.mem_cons, List.not_mem_nil, or_false, not_or] at h
  obtain ⟨hq, hname, hbits, hless⟩ := h
  rw [withDivision, if_neg hbits, if_neg (fun heq => hq (congrArg Ref.name heq)),
    if_neg (fun heq => hname (congrArg Ref.name heq)), withComparison_of_ne hless]

end

variable [Fact p.Prime]

/-! ## Division in the field -/

/-- Among all elements, a comparison with a number is true of the lesser numbers, and of elements
close below zero. -/
theorem isLess_one_iff {n m : ℕ} (hp : 2 ^ (n + 1) < p) (hm : m ≤ 2 ^ n) {x : ZMod p} :
    IsLess n x (m : ZMod p) 1 ↔ x.val < m ∨ p + m ≤ x.val + 2 ^ n := by
  have hpow : 2 ^ (n + 1) = 2 ^ n * 2 := pow_succ _ _
  have hx : x.val < p := ZMod.val_lt x
  have hdifference (k : ℕ) (h : x.val + 2 ^ n = k + m ∨ x.val + 2 ^ n = k + m + p) :
      x + 2 ^ n - m = (k : ZMod p) := by
    refine sub_eq_of_eq_add ?_
    calc x + 2 ^ n = ((x.val + 2 ^ n : ℕ) : ZMod p) := by
          rw [Nat.cast_add, ZMod.natCast_zmod_val, Nat.cast_pow, Nat.cast_ofNat]
      _ = (k : ZMod p) + m := by
        rcases h with h | h
        · rw [h, Nat.cast_add]
        · rw [h, Nat.cast_add, Nat.cast_add, ZMod.natCast_self, add_zero]
  constructor
  · intro h
    rw [← ZMod.natCast_zmod_val x] at h
    obtain ⟨k, hk, hout, hsum⟩ := h.exists_of_natCast (by omega) (by omega)
    split_ifs at hout with hlt
    · omega
    · exact absurd hout one_ne_zero
  · rintro (h | h)
    · exact isLess_one (hdifference (x.val + 2 ^ n - m) (.inl (by omega))) (by omega)
    · exact isLess_one (hdifference (x.val + 2 ^ n - m - p) (.inr (by omega))) (by omega)

/-- The division of numbers is one of the field when its quotient has so many bits. -/
theorem IsDivision.of_lt {n m : ℕ} {x : ZMod p} (hm : 0 < m) (hle : m ≤ 2 ^ n)
    (hx : x.val < 2 ^ n * m) :
    IsDivision n m x (x.val / m : ℕ) (x.val % m : ℕ) where
  sum := by
    rw [← Nat.cast_mul, ← Nat.cast_add, Nat.div_add_mod', ZMod.natCast_zmod_val]
  quotient_bits := ⟨_, isBits_natCast ((Nat.div_lt_iff_lt_mul hm).2 hx)⟩
  less := by
    have hlt : x.val % m < m := Nat.mod_lt _ hm
    have hless := isLess_natCast (p := p) (n := n) (a := x.val % m) (b := m) (by omega) (by omega)
    rwa [if_pos hlt] at hless

/-! ## The statements -/

variable {hash : List (ZMod p) → ZMod p} {σ : Ref → ZMod p}

/-- The statements of a remainder are kept when its signals have the values that belong to a
division. -/
theorem moduloStatements_hold_withDivision {bits modulus times : ℕ} {rest : ZMod p}
    {τ : Ref → ZMod p} {name : String} {value : Ref} (hsum : τ value = times * modulus + rest)
    (htimes : times < 2 ^ bits) (hless : IsLess bits rest (modulus : ZMod p) 1)
    (hvalue : value.name ∉ [name ++ "_q", name, name ++ "_qbits", name ++ "_lt"]) :
    ∀ s ∈ Fragment.moduloStatements bits name modulus value,
      s.Holds hash (withDivision τ name modulus times rest) none := by
  let σ := withDivision τ name modulus times rest
  have hleft : σ (((signalRef (name ++ "_lt")).field "in").atPlace 0) = rest :=
    (withDivision_less rfl).trans withComparison_left
  have hright : σ (((signalRef (name ++ "_lt")).field "in").atPlace 1) = modulus :=
    (withDivision_less rfl).trans withComparison_right
  have hout : σ (outputOf (name ++ "_lt")) = 1 := (withDivision_less rfl).trans withComparison_out
  have hresult : σ (signalRef name) = rest := withDivision_result
  refine moduloStatements_hold_iff.2 ⟨?_, ?_, ?_, compare_holds_iff.2 ⟨?_, ?_, hright⟩, ?_⟩
  · rw [withDivision_of_not_mem hvalue, withDivision_quotient, withDivision_result, hsum]
  · rw [Template.Holds, withDivision_bitsIn]
    simp only [withDivision_bitsOut]
    exact isBits_natCast htimes
  · rw [withDivision_bitsIn, withDivision_quotient]
  · change IsLess bits (σ _) (σ _) (σ (outputOf _))
    rwa [hleft, hright, hout]
  · exact hleft.trans hresult.symm
  · rw [Nat.cast_one]
    exact hout

/-- A remainder is one as far as its constraints say so, when its operand has another name than its
own signals. -/
theorem Fragment.takesRemainder_modulo {bits modulus : ℕ} (hp : 2 ^ (bits + 1) < p)
    (hpos : 0 < modulus) (hle : modulus ≤ 2 ^ bits) (heading : Heading) {name : String}
    {value : Ref} (hvalue : value.name ∉ (modulo bits heading name modulus value).declares) :
    (modulo bits heading name modulus value).TakesRemainder p bits modulus value
      (signalRef (name ++ "_q")) (signalRef name) := by
  have hdivision (hash : List (ZMod p) → ZMod p) (σ : Ref → ZMod p)
      (hσ : ∀ b ∈ (modulo bits heading name modulus value).blocks, b.Holds hash σ) :=
    isDivision_of_hold (Block.holds_ofStatements.1 (hσ _ (List.mem_singleton_self _)))
  refine ⟨?_, ?_, ?_, ?_⟩
  · exact fun hash σ hσ => (hdivision hash σ hσ).quotient_lt hp
  · exact fun hash σ hσ => (isLess_one_iff hp hle).1 (hdivision hash σ hσ).less
  · exact fun hash σ hσ => (hdivision hash σ hσ).val_eq_mod_iff hp hpos hle
  · intro hash τ hτ
    have hdivision := IsDivision.of_lt hpos hle hτ
    have hlt : (τ value).val % modulus < p := (Nat.mod_le _ _).trans_lt (ZMod.val_lt _)
    have htimes : (τ value).val / modulus < 2 ^ bits := (Nat.div_lt_iff_lt_mul hpos).2 hτ
    refine ⟨withDivision τ name modulus ((τ value).val / modulus) ((τ value).val % modulus : ℕ),
      fun b hb => ?_, withDivision_of_not_mem hvalue, ?_,
      fun r hr => withDivision_of_not_mem hr⟩
    · rw [List.mem_singleton.1 hb]
      exact Block.holds_ofStatements.2
        (moduloStatements_hold_withDivision hdivision.sum htimes hdivision.less hvalue)
    · rw [withDivision_result, ZMod.val_natCast_of_lt hlt]

/-- Where the sum cannot reach the order of the field, a result that has no more bits than are
compared is the remainder. -/
theorem Fragment.TakesRemainder.val_eq_mod {bits modulus : ℕ} {value quotient result : Ref}
    {f : Fragment} (h : f.TakesRemainder p bits modulus value quotient result)
    (hp : 2 ^ (bits + 1) < p) (hroom : 2 ^ bits * modulus ≤ p)
    (hσ : ∀ b ∈ f.blocks, b.Holds hash σ) (hlt : (σ result).val < 2 ^ bits) :
    (σ result).val < modulus ∧ (σ result).val = (σ value).val % modulus := by
  refine (h.exact hash σ hσ).2 ⟨hlt, ?_⟩
  have hpow : 2 ^ (bits + 1) = 2 ^ bits * 2 := pow_succ _ _
  have hrest : (σ result).val < modulus := by
    rcases h.lt_or_le hash σ hσ with hrest | hrest
    · exact hrest
    · omega
  exact (mul_add_lt (h.quotient_lt hash σ hσ) hrest).trans_le hroom

/-! ## Emission -/

/-- The gate of a remainder has the modulus that is read and the value at the port. -/
theorem Gate.ofNode_modulo {config : Config} {node : Node} {value? : String → Option Ref}
    {gate : Gate} {params : Params} {modulus : ℕ} (hkind : node.kind = .gadget .modulo params)
    (hresolve : Gadget.modulo.resolve config params = .ok (.modulo modulus))
    (h : ofNode config node value? = .ok gate) :
    ∃ value, value? "in" = some value ∧ gate = .modulo modulus value := by
  rw [ofNode_gadget hkind hresolve] at h
  obtain ⟨value, hvalue, hgate⟩ := bind_eq_ok.1 h
  exact ⟨value, operand_eq_ok hvalue, (pure_eq_ok.1 hgate).symm⟩

/-- In whatever is emitted with an accepted configuration, every remainder is one as far as its
constraints say so: at any place of any order, and over any field that has room for the
comparators. -/
theorem takesRemainder_of_emitUnit {config : Config} (hc : config.check = .ok ())
    {order : LinearOrder} {u : SourceUnit} (hu : emitUnit config order = .ok u)
    {before after : List Vertex} {v : Vertex} (hsplit : order.vertices = before ++ v :: after)
    {params : Params} {modulus : ℕ} (hkind : v.node.kind = .gadget .modulo params)
    (hresolve : Gadget.modulo.resolve config params = .ok (.modulo modulus)) :
    ∃ (f : Fragment) (value result : Ref),
      f.OfVertex config order.index before v (.modulo modulus value) ∧
      value.AtPort config order.index before v "in" ∧ f.result = some result ∧
      (∀ b ∈ f.blocks, b ∈ u.blocks) ∧
      ∀ (p : ℕ) [Fact p.Prime], 2 ^ 253 < p →
        f.TakesRemainder p config.comparatorBits modulus value
          (signalRef (result.name ++ "_q")) result := by
  obtain ⟨s', hs', rfl⟩ := emitUnit_eq_ok.1 hu
  rw [hsplit] at hs'
  obtain ⟨s, gate, hs, hgate, hmem⟩ := hs'.exists_of_split
  obtain ⟨value, hvalue, rfl⟩ := Gate.ofNode_modulo hkind hresolve hgate
  have hfresh := hs.not_mem_declares_of_mem_operands hgate (List.mem_singleton_self value)
  obtain ⟨hpos, hlt⟩ : 1 ≤ modulus ∧ modulus < 2 ^ config.comparatorBits :=
    Gadget.admits_of_resolve hresolve
  refine ⟨_, value, _, ⟨s, hs, hgate, rfl⟩, ⟨s, hs, hvalue⟩, rfl,
    fun b hb => List.mem_flatMap.2 ⟨_, hmem, hb⟩, fun p _ hp => ?_⟩
  have hroom : 2 ^ (config.comparatorBits + 1) < p :=
    (Nat.pow_le_pow_right Nat.two_pos
      (Nat.succ_le_succ (Config.accepted_of_check hc).bits.2)).trans_lt hp
  exact Fragment.takesRemainder_modulo hroom hpos hlt.le _ hfresh

/-! ## A graph -/

/-- The last digit of a number. -/
def lastDigit : Graph where
  nodes :=
    [Exhibit.secret "x" "Number", Exhibit.gadget "m" .modulo [("modulus", "10")],
     Exhibit.output "o" .number "Digit"]
  edges := [Graph.wire "x" "m" "in", Graph.wire "m" "o" "in"]

/-- The last digit of a number is its remainder, as far as the constraints say so. -/
theorem takesRemainder_lastDigit :
    let order : LinearOrder := ⟨lastDigit.index, lastDigit.vertices⟩
    let v : Vertex := ⟨1, Exhibit.gadget "m" .modulo [("modulus", "10")]⟩
    ({} : Config).check = .ok () ∧ ∃ u before after params,
      emitUnit {} order = .ok u ∧ order.vertices = before ++ v :: after ∧
        v.node.kind = .gadget .modulo params ∧
        Gadget.modulo.resolve {} params = .ok (.modulo 10) ∧
        ∃ (f : Fragment) (value result : Ref),
          f.OfVertex {} order.index before v (.modulo 10 value) ∧
          value.AtPort {} order.index before v "in" ∧ f.result = some result ∧
          (∀ b ∈ f.blocks, b ∈ u.blocks) ∧
          ∀ (p : ℕ) [Fact p.Prime], 2 ^ 253 < p →
            f.TakesRemainder p ({} : Config).comparatorBits 10 value
              (signalRef (result.name ++ "_q")) result := by
  intro order v
  have hsplit : order.vertices =
      [⟨0, Exhibit.secret "x" "Number"⟩] ++ v :: [⟨2, Exhibit.output "o" .number "Digit"⟩] := rfl
  have hresolve : Gadget.modulo.resolve {} (Params.ofList [("modulus", "10")]) =
      .ok (.modulo 10) := rfl
  obtain ⟨u, hu⟩ := exists_eq_ok (rfl : (emitUnit {} order).isOk = true)
  exact ⟨rfl, u, _, _, _, hu, hsplit, rfl, hresolve,
    takesRemainder_of_emitUnit rfl hu hsplit rfl hresolve⟩

namespace lastDigit

/-- The fragment of the remainder. -/
def fragment (bits : ℕ) : Fragment :=
  .modulo bits ⟨"n_m", "modulo"⟩ "n_m" 10 (signalRef "number")

/-- The fragments that the graph is emitted as. -/
def fragments (bits : ℕ) : List Fragment :=
  [.input .secret "number", fragment bits, .output "digit" (signalRef "n_m")]

/-- An assignment keeps all that the graph is emitted as, and these are the values, as numbers, of
the operand and the result of the remainder. -/
structure Takes (config : Config) (number digit : ℕ) : Prop where
  /-- The configuration is accepted. -/
  accepted : config.check = .ok ()
  /-- The nodes are listed in their linear order. -/
  linearized : lastDigit.linearize = .ok ⟨lastDigit.index, lastDigit.vertices⟩
  /-- The graph is emitted as these fragments. -/
  emitted : emitUnit config ⟨lastDigit.index, lastDigit.vertices⟩ =
    .ok (.ofFragments config (fragments config.comparatorBits))
  /-- The remainder is emitted as the one in the middle. -/
  ofVertex : ∃ before v after, lastDigit.vertices = before ++ v :: after ∧
    (fragment config.comparatorBits).OfVertex config lastDigit.index before v
      (.modulo 10 (signalRef "number"))
  /-- All constraints are kept with these values. -/
  kept : ∀ hash : List (ZMod fieldOrder) → ZMod fieldOrder, ∃ σ : Ref → ZMod fieldOrder,
    (SourceUnit.ofFragments config (fragments config.comparatorBits)).Holds hash σ ∧
      (σ (signalRef "number")).val = number ∧ (σ (signalRef "n_m")).val = digit

/-- The signals of the remainder have the values of the digit and of the other digits. Of the
signals that it does not declare, one is the number, and the output is the digit. -/
def assign (p number digit times : ℕ) : Ref → ZMod p :=
  withDivision (fun r => if r.name = "number" then number else digit) "n_m" 10 times digit

section

variable {p : ℕ} [Fact p.Prime] {number digit times : ℕ}

/-- The constraints are kept when the equation, the bits of the quotient and the comparison are. -/
theorem holds_assign (hash : List (ZMod p) → ZMod p) (config : Config) {bits : ℕ}
    (hsum : (number : ZMod p) = times * (10 : ℕ) + digit) (htimes : times < 2 ^ bits)
    (hless : IsLess bits (digit : ZMod p) (10 : ℕ) 1) :
    (SourceUnit.ofFragments config (fragments bits)).Holds hash
      (assign p number digit times) := by
  have hresult : assign p number digit times (signalRef "n_m") = digit := withDivision_result
  have houtput : assign p number digit times (signalRef "digit") = digit :=
    withDivision_of_not_mem (by decide)
  simp only [SourceUnit.Holds, SourceUnit.ofFragments, fragments, fragment, List.flatMap_cons,
    List.flatMap_nil, Fragment.input, Fragment.modulo, Fragment.output, List.nil_append,
    List.singleton_append, List.append_nil, List.forall_mem_cons, Block.holds_ofStatements]
  refine ⟨?_, ⟨houtput.trans hresult.symm, List.forall_mem_nil _⟩, List.forall_mem_nil _⟩
  exact moduloStatements_hold_withDivision hsum htimes hless (by decide)

end

/-- A number is taken apart when the equation holds up to the order of the field, the quotient has
so many bits, and the digit compares as less than ten. -/
theorem takes_of_eq {config : Config}
    (hconfig : config = {} ∨ config = { comparatorBits := maxComparatorBits })
    {number digit : ℕ} (times : ℕ) (hnumber : number < fieldOrder) (hdigit : digit < fieldOrder)
    (heq : number + fieldOrder = times * 10 + digit) (htimes : times < 2 ^ config.comparatorBits)
    (hless : digit < 10 ∨ fieldOrder + 10 ≤ digit + 2 ^ config.comparatorBits) :
    Takes config number digit where
  accepted := by
    rcases hconfig with rfl | rfl
    · rfl
    · rfl
  linearized := by cbv
  emitted := by
    rcases hconfig with rfl | rfl
    · rfl
    · rfl
  ofVertex := by
    have hinput : Emits config lastDigit.index ([] ++ [⟨0, Exhibit.secret "x" "Number"⟩]) _ :=
      .step .initial rfl
    refine ⟨_, ⟨1, Exhibit.gadget "m" .modulo [("modulus", "10")]⟩, _, rfl, _, hinput, ?_⟩
    rcases hconfig with rfl | rfl
    · exact ⟨rfl, rfl⟩
    · exact ⟨rfl, rfl⟩
  kept := by
    intro hash
    have hten : 10 ≤ 2 ^ config.comparatorBits := by
      rcases hconfig with rfl | rfl
      · norm_num
      · norm_num [maxComparatorBits]
    have hroom : 2 ^ (config.comparatorBits + 1) < fieldOrder := by
      refine (Nat.pow_le_pow_right Nat.two_pos ?_).trans_lt two_pow_lt_fieldOrder
      rcases hconfig with rfl | rfl
      · decide
      · decide
    have hsum : (number : ZMod fieldOrder) = times * (10 : ℕ) + digit :=
      calc (number : ZMod fieldOrder) = ((number + fieldOrder : ℕ) : ZMod fieldOrder) := by
            rw [Nat.cast_add, ZMod.natCast_self, add_zero]
        _ = times * (10 : ℕ) + digit := by rw [heq, Nat.cast_add, Nat.cast_mul]
    have hless : IsLess config.comparatorBits (digit : ZMod fieldOrder) (10 : ℕ) 1 := by
      rw [isLess_one_iff hroom hten, ZMod.val_natCast_of_lt hdigit]
      exact hless
    have hkept := holds_assign hash config hsum htimes hless
    refine ⟨assign fieldOrder number digit times, hkept, ?_, ?_⟩
    · have hvalue : assign fieldOrder number digit times (signalRef "number") = number :=
        withDivision_of_not_mem (by decide)
      rw [hvalue, ZMod.val_natCast_of_lt hnumber]
    · have hvalue : assign fieldOrder number digit times (signalRef "n_m") = digit :=
        withDivision_result
      rw [hvalue, ZMod.val_natCast_of_lt hdigit]

end lastDigit

/-- The last digit of seven may be three less than zero, since seven is ten less three; and with the
widest comparators that of zero may be that of the order of the field, which is seven. -/
theorem lastDigit_not_bounded :
    (lastDigit.Takes {} 7 (fieldOrder - 3) ∧ 10 ≤ fieldOrder - 3) ∧
      lastDigit.Takes { comparatorBits := maxComparatorBits } 0 7 ∧ 7 ≠ 0 % 10 := by
  refine ⟨⟨?_, by norm_num [fieldOrder]⟩, ?_, by norm_num⟩
  · refine lastDigit.takes_of_eq (.inl rfl) 1 ?_ ?_ ?_ ?_ (.inr ?_)
    all_goals norm_num [fieldOrder]
  · refine lastDigit.takes_of_eq (.inr rfl) (fieldOrder / 10) ?_ ?_ ?_ ?_ (.inl ?_)
    all_goals norm_num [fieldOrder, maxComparatorBits]

end CircuitGraph.Circom
