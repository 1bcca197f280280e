import CircuitGraph.Proofs.Circom.Agreement
import CircuitGraph.Proofs.Circom.Scope

/-!
# Range checks decide their range

A range check compares its operand with both bounds and multiplies the outcomes. The comparisons are
of numbers of so many bits, but nothing constrains the operand, which may be any element of the
field. `Fragment.DecidesRange` says that the result tells all the same whether the operand, taken as
a number, lies between the bounds; and that the constraints can be kept when the operand has no more
bits than are compared.

The first comparison alone would not do. It is true of the numbers that are less than `2 ^ n` above
the lower bound, and of no others (`IsLess.eq_of_natCast_succ`). Within this window the difference
to the upper bound does not wrap around, so the second comparison is right there
(`IsLess.eq_of_succ_natCast`); and nothing outside of it lies between the bounds.
-/

namespace CircuitGraph.Circom

variable {p : ℕ}

/-- A fragment whose result tells whether a value, taken as a number, lies between two bounds. -/
structure Fragment.DecidesRange (p : ℕ) [Fact p.Prime] (bits min max : ℕ) (value result : Ref)
    (f : Fragment) : Prop where
  /-- The result is right whatever the value is. -/
  sound : ∀ (hash : List (ZMod p) → ZMod p) (σ : Ref → ZMod p), (∀ b ∈ f.blocks, b.Holds hash σ) →
    σ result = if min ≤ (σ value).val ∧ (σ value).val ≤ max then 1 else 0
  /-- A value of so many bits can be checked: whatever the signals are that the fragment does not
  declare, those that it declares can be chosen. -/
  complete : ∀ (hash : List (ZMod p) → ZMod p) (τ : Ref → ZMod p), (τ value).val < 2 ^ bits →
    ∃ σ : Ref → ZMod p, (∀ b ∈ f.blocks, b.Holds hash σ) ∧ σ value = τ value ∧
      ∀ r, r.name ∉ f.declares → σ r = τ r

/-! ## Assignments -/

/-- An assignment with given values at the inputs and at the output of a comparison. -/
def withComparison (τ : Ref → ZMod p) (name : String) (left right out : ZMod p) (r : Ref) :
    ZMod p :=
  if r = ((signalRef name).field "in").atPlace 0 then left
  else if r = ((signalRef name).field "in").atPlace 1 then right
  else if r = outputOf name then out
  else τ r

/-- An assignment in which the signals of a range check have the values that belong to an
operand. -/
def withRangeCheck (τ : Ref → ZMod p) (name : String) (min max : ℕ) (x : ZMod p) : Ref → ZMod p :=
  let above : ZMod p := if min < x.val + 1 then 1 else 0
  let below : ZMod p := if x.val < max + 1 then 1 else 0
  let compared := withComparison (withComparison τ (name ++ "_ge") x min above) (name ++ "_le") x
    max below
  Function.update compared (signalRef name) (above * below)

section

variable {τ : Ref → ZMod p} {name : String} {left right out : ZMod p}

/-- Signals of another name keep their values. -/
theorem withComparison_of_ne {r : Ref} (h : r.name ≠ name) :
    withComparison τ name left right out r = τ r := by
  have hne {other : Ref} (hname : other.name = name) : r ≠ other := fun heq => h (heq ▸ hname)
  rw [withComparison, if_neg (hne rfl), if_neg (hne rfl), if_neg (hne rfl)]

/-- The first input has its value. -/
theorem withComparison_left :
    withComparison τ name left right out (((signalRef name).field "in").atPlace 0) = left :=
  if_pos rfl

/-- The second input has its value. -/
theorem withComparison_right :
    withComparison τ name left right out (((signalRef name).field "in").atPlace 1) = right := by
  rw [withComparison, if_neg (by simp [Ref.atPlace]), if_pos rfl]

/-- The output has its value. -/
theorem withComparison_out : withComparison τ name left right out (outputOf name) = out := by
  rw [withComparison, if_neg (by simp [Ref.atPlace, outputOf, Ref.field]),
    if_neg (by simp [Ref.atPlace, outputOf, Ref.field]), if_pos rfl]

/-- The names of a range check are distinct. -/
theorem ne_of_rangeSuffixes (name : String) :
    name ++ "_ge" ≠ name ∧ name ++ "_le" ≠ name ∧ name ++ "_ge" ≠ name ++ "_le" := by
  have hnodup := nodup_family areSuffixes_range.nodup name
  simp only [family, rangeSuffixes, List.map_cons, List.map_nil, List.nodup_cons, List.mem_cons,
    List.not_mem_nil, not_or] at hnodup
  exact ⟨Ne.symm hnodup.1.1, Ne.symm hnodup.1.2.1, hnodup.2.1.1⟩

variable {min max : ℕ} {x : ZMod p}

/-- Signals of a name that is not that of the result keep what the comparisons leave. -/
theorem withRangeCheck_of_ne {r : Ref} (h : r.name ≠ name) :
    withRangeCheck τ name min max x r =
      withComparison (withComparison τ (name ++ "_ge") x min (if min < x.val + 1 then 1 else 0))
        (name ++ "_le") x max (if x.val < max + 1 then 1 else 0) r :=
  Function.update_of_ne (fun heq => h (congrArg Ref.name heq)) _ _

/-- The signals of the first comparison. -/
theorem withRangeCheck_above {r : Ref} (h : r.name = name ++ "_ge") :
    withRangeCheck τ name min max x r =
      withComparison τ (name ++ "_ge") x min (if min < x.val + 1 then 1 else 0) r := by
  obtain ⟨habove, -, hne⟩ := ne_of_rangeSuffixes name
  rw [withRangeCheck_of_ne (h ▸ habove), withComparison_of_ne (h ▸ hne)]

/-- The signals of the second comparison. -/
theorem withRangeCheck_below {r : Ref} (h : r.name = name ++ "_le") :
    withRangeCheck τ name min max x r =
      withComparison (withComparison τ (name ++ "_ge") x min (if min < x.val + 1 then 1 else 0))
        (name ++ "_le") x max (if x.val < max + 1 then 1 else 0) r :=
  withRangeCheck_of_ne (h ▸ (ne_of_rangeSuffixes name).2.1)

/-- Signals that do not belong to the range check keep their values. -/
theorem withRangeCheck_of_not_mem {r : Ref} (h : r.name ∉ [name ++ "_ge", name ++ "_le", name]) :
    withRangeCheck τ name min max x r = τ r := by
  simp only [List.mem_cons, List.not_mem_nil, or_false, not_or] at h
  rw [withRangeCheck_of_ne h.2.2, withComparison_of_ne h.2.1, withComparison_of_ne h.1]

end

variable [Fact p.Prime]

/-! ## The two comparisons -/

/-- Comparing a bound with the successor of an element tells whether the element is in the window
that begins at the bound. -/
theorem IsLess.eq_of_natCast_succ {n min : ℕ} {x out : ZMod p} (hp : 2 ^ (n + 1) < p)
    (hmin : min < 2 ^ n) (h : IsLess n (min : ZMod p) (x + 1) out) :
    out = if min ≤ x.val ∧ x.val < min + 2 ^ n then 1 else 0 := by
  have hpow : 2 ^ (n + 1) = 2 ^ n * 2 := pow_succ _ _
  have hx : x.val < p := ZMod.val_lt x
  rw [← ZMod.natCast_zmod_val x, ← Nat.cast_succ] at h
  obtain ⟨k, hk, hout, hsum⟩ := h.exists_of_natCast (by omega) (by omega)
  rw [hout]
  refine if_congr ?_ rfl rfl
  omega

/-- In the window that begins at a bound, comparing an element with the successor of a greater bound
is comparing numbers. -/
theorem IsLess.eq_of_succ_natCast {n min max : ℕ} {x out : ZMod p} (hp : 2 ^ (n + 1) < p)
    (hle : min ≤ max) (hmax : max < 2 ^ n) (hx : x.val < min + 2 ^ n)
    (h : IsLess n x ((max : ZMod p) + 1) out) : out = if x.val ≤ max then 1 else 0 := by
  have hpow : 2 ^ (n + 1) = 2 ^ n * 2 := pow_succ _ _
  rw [← ZMod.natCast_zmod_val x, ← Nat.cast_succ] at h
  obtain ⟨k, hk, hout, hsum⟩ := h.exists_of_natCast (by omega) (by omega)
  rw [hout]
  refine if_congr ?_ rfl rfl
  omega

/-- Both comparisons together tell whether an element is between the bounds. -/
theorem mul_eq_of_isLess {n min max : ℕ} {x above below : ZMod p} (hp : 2 ^ (n + 1) < p)
    (hle : min ≤ max) (hmax : max < 2 ^ n) (habove : IsLess n (min : ZMod p) (x + 1) above)
    (hbelow : IsLess n x ((max : ZMod p) + 1) below) :
    above * below = if min ≤ x.val ∧ x.val ≤ max then 1 else 0 := by
  rw [habove.eq_of_natCast_succ hp (hle.trans_lt hmax)]
  split_ifs with hwindow hrange hrange
  · rw [hbelow.eq_of_succ_natCast hp hle hmax hwindow.2, if_pos hrange.2, one_mul]
  · have hgreater : ¬ x.val ≤ max := fun hle => hrange ⟨hwindow.1, hle⟩
    rw [hbelow.eq_of_succ_natCast hp hle hmax hwindow.2, if_neg hgreater, mul_zero]
  · -- what is between the bounds is in the window
    exact absurd ⟨hrange.1, by omega⟩ hwindow
  · exact zero_mul _

/-- The two outcomes for an element of so many bits. -/
theorem isLess_and_isLess {n min max : ℕ} {x : ZMod p} (hle : min ≤ max) (hmax : max < 2 ^ n)
    (hx : x.val < 2 ^ n) :
    IsLess n (min : ZMod p) (x + 1) (if min < x.val + 1 then 1 else 0) ∧
      IsLess n x ((max : ZMod p) + 1) (if x.val < max + 1 then 1 else 0) := by
  have habove : IsLess n (min : ZMod p) ((x.val + 1 : ℕ) : ZMod p)
      (if min < x.val + 1 then 1 else 0) := isLess_natCast (by omega) (by omega)
  have hbelow : IsLess n (x.val : ZMod p) ((max + 1 : ℕ) : ZMod p)
      (if x.val < max + 1 then 1 else 0) := isLess_natCast (by omega) (by omega)
  rw [Nat.cast_succ, ZMod.natCast_zmod_val] at habove hbelow
  exact ⟨habove, hbelow⟩

/-! ## The statements -/

variable {hash : List (ZMod p) → ZMod p} {σ : Ref → ZMod p}

/-- The statements of a range check are kept when its signals have the values that belong to an
operand of so many bits. -/
theorem rangeStatements_hold_withRangeCheck {bits min max : ℕ} {τ : Ref → ZMod p} {name : String}
    {value : Ref} (hle : min ≤ max) (hmax : max < 2 ^ bits) (hτ : (τ value).val < 2 ^ bits)
    (hvalue : value.name ∉ [name ++ "_ge", name ++ "_le", name]) :
    ∀ s ∈ Fragment.rangeStatements bits name min max value,
      s.Holds hash (withRangeCheck τ name min max (τ value)) none := by
  let σ := withRangeCheck τ name min max (τ value)
  have hkept : σ value = τ value := withRangeCheck_of_not_mem hvalue
  obtain ⟨hless, hless'⟩ := isLess_and_isLess hle hmax hτ
  have habove : σ (outputOf (name ++ "_ge")) = if min < (τ value).val + 1 then 1 else 0 :=
    (withRangeCheck_above rfl).trans withComparison_out
  have hbelow : σ (outputOf (name ++ "_le")) = if (τ value).val < max + 1 then 1 else 0 :=
    (withRangeCheck_below rfl).trans withComparison_out
  refine rangeStatements_hold_iff.2 ⟨compare_holds_iff.2 ?_, compare_holds_iff.2 ?_, ?_⟩
  · have hleft : σ (((signalRef (name ++ "_ge")).field "in").atPlace 0) = τ value :=
      (withRangeCheck_above rfl).trans withComparison_left
    have hright : σ (((signalRef (name ++ "_ge")).field "in").atPlace 1) = min :=
      (withRangeCheck_above rfl).trans withComparison_right
    refine ⟨?_, hleft.trans hkept.symm, hright⟩
    change IsLess bits (σ _) (σ _ + 1) (σ (outputOf _))
    rwa [hleft, hright, habove]
  · have hleft : σ (((signalRef (name ++ "_le")).field "in").atPlace 0) = τ value :=
      (withRangeCheck_below rfl).trans withComparison_left
    have hright : σ (((signalRef (name ++ "_le")).field "in").atPlace 1) = max :=
      (withRangeCheck_below rfl).trans withComparison_right
    refine ⟨?_, hleft.trans hkept.symm, hright⟩
    change IsLess bits (σ _) (σ _ + 1) (σ (outputOf _))
    rwa [hleft, hright, hbelow]
  · change σ (signalRef name) = σ _ * σ _
    rw [habove, hbelow]
    exact Function.update_self _ _ _

/-- A range check decides its range when its operand has another name than its own signals. -/
theorem Fragment.decidesRange_rangeCheck {bits min max : ℕ} (hp : 2 ^ (bits + 1) < p)
    (hle : min ≤ max) (hmax : max < 2 ^ bits) (heading : Heading) {name : String} {value : Ref}
    (hvalue : value.name ∉ (rangeCheck bits heading name min max value).declares) :
    (rangeCheck bits heading name min max value).DecidesRange p bits min max value
      (signalRef name) where
  sound := by
    intro hash σ hσ
    have hblock := Block.holds_ofStatements.1 (hσ _ (List.mem_singleton_self _))
    obtain ⟨habove, hbelow, hresult⟩ := rangeStatements_hold_iff.1 hblock
    obtain ⟨habove, hleft, hright⟩ := compare_holds_iff.1 habove
    obtain ⟨hbelow, hleft', hright'⟩ := compare_holds_iff.1 hbelow
    rw [Template.Holds, hleft, hright] at habove
    rw [Template.Holds, hleft', hright'] at hbelow
    exact hresult.trans (mul_eq_of_isLess hp hle hmax habove hbelow)
  complete := by
    intro hash τ hτ
    refine ⟨withRangeCheck τ name min max (τ value), fun b hb => ?_,
      withRangeCheck_of_not_mem hvalue, fun r hr => withRangeCheck_of_not_mem hr⟩
    rw [List.mem_singleton.1 hb]
    exact Block.holds_ofStatements.2 (rangeStatements_hold_withRangeCheck hle hmax hτ hvalue)

/-! ## Emission -/

/-- The fragment of a range check that stands behind other vertices of an order. -/
structure Fragment.OfRangeCheck (config : Config) (index : Index) (before : List Vertex)
    (v : Vertex) (min max : ℕ) (value result : Ref) (f : Fragment) : Prop where
  /-- When the vertices before it have been emitted, the value is at the port of the vertex, and the
  vertex is emitted as the fragment. -/
  emitted : ∃ s, Emits config index before s ∧ Emission.value? index s.results v "in" = some value ∧
    ((Gate.rangeCheck min max value).fragment config v.node s.names).1 = f
  /-- The fragment carries the result. -/
  result_eq : f.result = some result

/-- The gate of a range check has the bounds that are read and the value at the port. -/
theorem Gate.ofNode_rangeCheck {config : Config} {node : Node} {value? : String → Option Ref}
    {gate : Gate} {params : Params} {min max : ℕ} (hkind : node.kind = .gadget .rangeCheck params)
    (hresolve : Gadget.rangeCheck.resolve config params = .ok (.rangeCheck min max))
    (h : ofNode config node value? = .ok gate) :
    ∃ value, value? "in" = some value ∧ gate = .rangeCheck min max value := by
  rw [ofNode_gadget hkind hresolve] at h
  obtain ⟨value, hvalue, hgate⟩ := bind_eq_ok.1 h
  exact ⟨value, operand_eq_ok hvalue, (pure_eq_ok.1 hgate).symm⟩

/-- In whatever is emitted with an accepted configuration, every range check decides its range: at
any place of any order, and over any field that has room for the comparators. -/
theorem decidesRange_of_emitUnit {config : Config} (hc : config.check = .ok ())
    {order : LinearOrder} {u : SourceUnit} (hu : emitUnit config order = .ok u)
    {before after : List Vertex} {v : Vertex} (hsplit : order.vertices = before ++ v :: after)
    {params : Params} {min max : ℕ} (hkind : v.node.kind = .gadget .rangeCheck params)
    (hresolve : Gadget.rangeCheck.resolve config params = .ok (.rangeCheck min max)) :
    ∃ (f : Fragment) (value result : Ref),
      f.OfRangeCheck config order.index before v min max value result ∧
      (∀ b ∈ f.blocks, b ∈ u.blocks) ∧
      ∀ (p : ℕ) [Fact p.Prime], 2 ^ 253 < p →
        f.DecidesRange p config.comparatorBits min max value result := by
  obtain ⟨s', hs', rfl⟩ := emitUnit_eq_ok.1 hu
  rw [hsplit] at hs'
  obtain ⟨s, gate, hs, hgate, hmem⟩ := hs'.exists_of_split
  obtain ⟨value, hvalue, rfl⟩ := Gate.ofNode_rangeCheck hkind hresolve hgate
  have hfresh := hs.not_mem_declares_of_mem_operands hgate (List.mem_singleton_self value)
  obtain ⟨hle, hmax⟩ : min ≤ max ∧ max < 2 ^ config.comparatorBits :=
    Gadget.admits_of_resolve hresolve
  refine ⟨_, value, _, ⟨⟨s, hs, hvalue, rfl⟩, rfl⟩,
    fun b hb => List.mem_flatMap.2 ⟨_, hmem, hb⟩, fun p _ hp => ?_⟩
  have hroom : 2 ^ (config.comparatorBits + 1) < p :=
    (Nat.pow_le_pow_right Nat.two_pos
      (Nat.succ_le_succ (Config.accepted_of_check hc).bits.2)).trans_lt hp
  exact Fragment.decidesRange_rangeCheck hroom hle hmax _ hfresh

/-- The gallery's range check, behind its operand and in front of the output. -/
theorem decidesRange_rangeVerification :
    let g := Exhibit.rangeVerification.graph
    let order : LinearOrder := ⟨g.index, g.vertices⟩
    let v : Vertex := ⟨1, Exhibit.gadget "bounds" .rangeCheck [("min", "18"), ("max", "65")]⟩
    ({} : Config).check = .ok () ∧ ∃ u before after params,
      emitUnit {} order = .ok u ∧ order.vertices = before ++ v :: after ∧
        v.node.kind = .gadget .rangeCheck params ∧
        Gadget.rangeCheck.resolve {} params = .ok (.rangeCheck 18 65) ∧
        ∃ (f : Fragment) (value result : Ref),
          f.OfRangeCheck {} order.index before v 18 65 value result ∧
          (∀ b ∈ f.blocks, b ∈ u.blocks) ∧
          ∀ (p : ℕ) [Fact p.Prime], 2 ^ 253 < p →
            f.DecidesRange p ({} : Config).comparatorBits 18 65 value result := by
  intro g order v
  have hisOk : (emitUnit {} order).isOk = true := rfl
  have hsplit : order.vertices =
      [⟨0, Exhibit.secret "value" "Private Value"⟩] ++
        v :: [⟨2, Exhibit.output "in-range" .boolean "In Range"⟩] := rfl
  have hresolve : Gadget.rangeCheck.resolve {} (Params.ofList [("min", "18"), ("max", "65")]) =
      .ok (.rangeCheck 18 65) := rfl
  cases hemit : emitUnit {} order with
  | error e =>
    rw [hemit] at hisOk
    cases hisOk
  | ok u =>
    exact ⟨rfl, u, _, _, _, rfl, hsplit, rfl, hresolve,
      decidesRange_of_emitUnit rfl hemit hsplit rfl hresolve⟩

end CircuitGraph.Circom
