import CircuitGraph.Proofs.Cost.Total

/-!
# Totals follow the policy

What a node is reckoned with is a policy: so many constraints for a sum, so many for each bit of a
comparator. Here it is written down in numbers without a bound (`Config.policy`). The estimate works
with counts of 64 bits instead, and clamps after every sum and every product. Nothing is lost by
that: an operation on clamped counts gives the clamped result (`Count.Clamps`), so the total of a
circuit is the sum that the policy asks for, clamped once (`Config.costsExactly`).

So the order of the nodes does not matter, and more nodes never make a circuit cheaper or faster.
-/

namespace CircuitGraph

open CircuitGraph.Text

/-! ## Clamped numbers -/

namespace Count

/-- The count is a number, or the largest count when the number is larger. -/
def Clamps (c : Count) (n : Nat) : Prop := c.toNat = min n maxWord

/-- A count clamps its own number. -/
theorem clamps_toNat (c : Count) : c.Clamps c.toNat := (Nat.min_eq_left c.le_max).symm

/-- A clamped number is clamped. -/
theorem clamps_clamp (n : Nat) : (clamp n).Clamps n := toNat_clamp n

namespace Clamps

variable {a b : Count} {m n : Nat}

/-- A sum of clamped numbers clamps their sum. -/
theorem add (ha : a.Clamps m) (hb : b.Clamps n) : (a + b).Clamps (m + n) := by
  unfold Clamps at *
  rw [toNat_add, ha, hb]
  omega

/-- A product of clamped numbers clamps their product: a factor that was too large makes the product
too large as well, unless the other one is zero. -/
theorem mul (ha : a.Clamps m) (hb : b.Clamps n) : (a * b).Clamps (m * n) := by
  unfold Clamps at *
  rw [toNat_mul, ha, hb]
  rcases Nat.eq_zero_or_pos m with rfl | hm
  · simp
  rcases Nat.eq_zero_or_pos n with rfl | hn
  · simp
  have hleft : m ≤ m * n := Nat.le_mul_of_pos_right m hn
  have hright : n ≤ m * n := Nat.le_mul_of_pos_left n hm
  by_cases hfit : m ≤ maxWord ∧ n ≤ maxWord
  · rw [Nat.min_eq_left hfit.1, Nat.min_eq_left hfit.2]
  · have hlarge : maxWord ≤ m * n := by omega
    have hclamped : maxWord ≤ min m maxWord * min n maxWord := by
      have hpos : 0 < maxWord := by decide
      rcases not_and_or.1 hfit with hm' | hn'
      · calc maxWord = maxWord * 1 := (Nat.mul_one _).symm
          _ ≤ min m maxWord * min n maxWord := Nat.mul_le_mul (by omega) (by omega)
      · calc maxWord = 1 * maxWord := (Nat.one_mul _).symm
          _ ≤ min m maxWord * min n maxWord := Nat.mul_le_mul (by omega) (by omega)
    rw [Nat.min_eq_right hclamped, Nat.min_eq_right hlarge]

end Clamps

end Count

/-! ## The policy -/

namespace Config

variable {config : Config}

/-- The constraints of a comparison: a number for each bit, and one for the rest. -/
def comparatorPolicy (config : Config) : Nat :=
  config.costs.comparatorPerBit.toNat * config.comparatorBits + config.costs.comparatorBase.toNat

/-- The constraints of an operation. -/
def operatorPolicy (config : Config) : Operator → Nat
  | .add | .subtract => config.costs.linear.toNat
  | .multiply => config.costs.multiply.toNat
  | .divide => config.costs.divide.toNat
  | .gt | .lt | .eq => config.comparatorPolicy

/-- The constraints of a gadget. -/
def settingPolicy (config : Config) : Setting → Nat
  | .rangeCheck .. => 2 * config.comparatorPolicy + config.costs.rangeCheckAnd.toNat
  | .hash inputs => config.costs.hashPerInput.toNat * inputs
  | .conditional _ => config.costs.conditional.toNat + config.comparatorPolicy
  | .merkleProof depth => config.costs.merklePerLevel.toNat * depth + config.comparatorPolicy
  | .modulo _ => config.costs.modulo.toNat + config.comparatorPolicy +
      config.costs.comparatorPerBit.toNat * config.comparatorBits

/-- The constraints of a node; nothing is reckoned for a gadget whose parameters cannot be used. -/
def policy (config : Config) (node : Node) : Nat :=
  match node.kind with
  | .input .. => config.costs.input.toNat
  | .operation operator => config.operatorPolicy operator
  | .gadget gadget params =>
    match gadget.resolve config params with
    | .ok setting => config.settingPolicy setting
    | .error _ => 0
  | .output .. => config.costs.output.toNat

/-- A gadget whose parameters do not resolve. -/
def Unresolved (config : Config) (node : Node) : Prop :=
  ∃ gadget params error, node.kind = .gadget gadget params ∧
    gadget.resolve config params = .error error

/-- The count for a comparison clamps what the policy says. -/
theorem clamps_comparatorCost (config : Config) :
    config.comparatorCost.Clamps config.comparatorPolicy :=
  ((Count.clamps_toNat _).mul (Count.clamps_clamp _)).add (Count.clamps_toNat _)

/-- The count for an operation clamps what the policy says. -/
theorem clamps_operatorCost (config : Config) (operator : Operator) :
    (config.operatorCost operator).Clamps (config.operatorPolicy operator) := by
  cases operator with
  | gt | lt | eq => exact config.clamps_comparatorCost
  | _ => exact Count.clamps_toNat _

/-- The count for a gadget clamps what the policy says. -/
theorem clamps_settingCost (config : Config) (setting : Setting) :
    (config.settingCost setting).Clamps (config.settingPolicy setting) := by
  have hcomparator := config.clamps_comparatorCost
  cases setting with
  | rangeCheck min max =>
    rw [settingPolicy, Nat.mul_comm]
    exact (hcomparator.mul (Count.clamps_clamp 2)).add (Count.clamps_toNat _)
  | hash inputs => exact (Count.clamps_toNat _).mul (Count.clamps_clamp inputs)
  | conditional condition => exact (Count.clamps_toNat _).add hcomparator
  | merkleProof depth =>
    exact ((Count.clamps_toNat _).mul (Count.clamps_clamp depth)).add hcomparator
  | modulo modulus =>
    exact ((Count.clamps_toNat _).add hcomparator).add
      ((Count.clamps_toNat _).mul (Count.clamps_clamp _))

/-- A node has no cost when it is a gadget whose parameters do not resolve, and only then. -/
theorem nodeCost?_eq_none_iff {node : Node} :
    config.nodeCost? node = none ↔ config.Unresolved node := by
  unfold nodeCost? Unresolved
  cases node.kind with
  | gadget gadget params => cases hresolve : gadget.resolve config params <;> simp [hresolve]
  | _ => simp

/-- The cost of a node clamps what the policy says. -/
theorem clamps_of_nodeCost? {node : Node} {cost : Count} (h : config.nodeCost? node = some cost) :
    cost.Clamps (config.policy node) := by
  unfold nodeCost? at h
  unfold policy
  cases hkind : node.kind with
  | gadget gadget params =>
    rw [hkind] at h
    dsimp only at h ⊢
    cases hresolve : gadget.resolve config params with
    | error error =>
      rw [hresolve] at h
      cases h
    | ok setting =>
      rw [hresolve] at h
      obtain rfl := Option.some.inj h
      exact config.clamps_settingCost setting
  | operation operator =>
    rw [hkind] at h
    obtain rfl := Option.some.inj h
    exact config.clamps_operatorCost operator
  | input visibility label | output type label =>
    rw [hkind] at h
    obtain rfl := Option.some.inj h
    exact Count.clamps_toNat _

/-- The sum that the policy asks for. -/
def policySum (config : Config) (nodes : List Node) : Nat := (nodes.map config.policy).sum

/-- Clamping at every node or only at the end is the same. -/
theorem min_costSum {nodes : List Node} (h : ∀ node ∈ nodes, ¬ config.Unresolved node) :
    min (config.costSum nodes) maxWord = min (config.policySum nodes) maxWord := by
  induction nodes with
  | nil => rfl
  | cons node nodes ih =>
    rw [List.forall_mem_cons] at h
    obtain ⟨cost, hcost⟩ := Option.ne_none_iff_exists'.1 (mt nodeCost?_eq_none_iff.1 h.1)
    have hnode : cost.toNat = min (config.policy node) maxWord := clamps_of_nodeCost? hcost
    have hrest := ih h.2
    rw [costSum_cons, hcost, Option.elim_some, policySum, List.map_cons, List.sum_cons, ← policySum]
    omega

end Config

/-! ## Proving times -/

/-- The place of a proving time among all of them, the fastest first. -/
def timeRank (time : String) : Nat := (timeBuckets.map Prod.snd ++ [slowestTime]).idxOf time

/-- Among buckets in ascending order, under different labels, the first one whose bound exceeds a
number stands behind those whose bounds the number reaches. -/
theorem idxOf_find?_bucket {buckets : List (Nat × String)} {last : String} {n : Nat}
    (hbounds : (buckets.map Prod.fst).Pairwise (· < ·))
    (hlabels : (buckets.map Prod.snd ++ [last]).Nodup) :
    (buckets.map Prod.snd ++ [last]).idxOf
        (((buckets.find? fun (bound, _) => n < bound).map Prod.snd).getD last) =
      buckets.countP fun (bound, _) => bound ≤ n := by
  induction buckets with
  | nil => simp
  | cons bucket buckets ih =>
    obtain ⟨bound, label⟩ := bucket
    rw [List.map_cons, List.pairwise_cons] at hbounds
    rw [List.map_cons, List.cons_append, List.nodup_cons] at hlabels
    by_cases hn : n < bound
    · -- no later bound is reached, since all of them are greater
      have hnone : buckets.countP (fun (bound, _) => bound ≤ n) = 0 := by
        refine List.countP_eq_zero.2 fun other hother => ?_
        have hlt := hbounds.1 other.1 (List.mem_map_of_mem hother)
        simp only [decide_eq_true_eq]
        omega
      rw [List.countP_cons_of_neg (by simpa using hn), hnone, List.find?_cons_of_pos (by simpa)]
      exact List.idxOf_cons_self
    · rw [List.countP_cons_of_pos (by simpa using hn), List.find?_cons_of_neg (by simpa using hn),
        ← ih hbounds.2 hlabels.2, List.map_cons, List.cons_append, List.idxOf_cons_ne]
      -- the label that is found is not the first one
      rintro rfl
      refine hlabels.1 ?_
      cases hfind : buckets.find? fun (bound, _) => n < bound with
      | none => simp
      | some other =>
        have hmem := List.mem_map_of_mem (f := Prod.snd) (List.mem_of_find?_eq_some hfind)
        simpa using Or.inl hmem

/-- The place of the time for a number of constraints is the number of bounds that it reaches. -/
theorem timeRank_timeBucket (n : Nat) :
    timeRank (timeBucket n) = timeBuckets.countP fun (bound, _) => bound ≤ n := by
  have hlabel : timeBucket n =
      ((timeBuckets.find? fun (bound, _) => n < bound).map Prod.snd).getD slowestTime := by
    unfold timeBucket
    cases timeBuckets.find? fun (bound, _) => n < bound <;> rfl
  rw [timeRank, hlabel]
  exact idxOf_find?_bucket (by decide) (by decide)

/-- More constraints never take less time. -/
theorem timeRank_mono {m n : Nat} (h : m ≤ n) :
    timeRank (timeBucket m) ≤ timeRank (timeBucket n) := by
  rw [timeRank_timeBucket, timeRank_timeBucket]
  refine List.countP_mono_left fun bucket _ hbound => ?_
  rw [decide_eq_true_eq] at hbound ⊢
  exact Nat.le_trans hbound h

/-! ## Totals -/

namespace Config

variable {config : Config}

/-- There is no total when some node is a gadget whose parameters do not resolve, and only then. -/
theorem totalCost?_eq_none_iff_unresolved {nodes : List Node} :
    config.totalCost? nodes = none ↔ ∃ node ∈ nodes, config.Unresolved node := by
  rw [totalCost?_eq_none_iff]
  exact exists_congr fun node => and_congr_right fun _ => nodeCost?_eq_none_iff

/-- When everything resolves there is a total, and it clamps the sum that the policy asks for. -/
theorem exists_clamps_policySum {nodes : List Node}
    (h : ∀ node ∈ nodes, ¬ config.Unresolved node) :
    ∃ total, config.totalCost? nodes = some total ∧ total.Clamps (config.policySum nodes) := by
  have hsome : config.totalCost? nodes ≠ none := by
    rw [Ne, totalCost?_eq_none_iff_unresolved]
    rintro ⟨node, hnode, hunresolved⟩
    exact h node hnode hunresolved
  obtain ⟨total, htotal⟩ := Option.ne_none_iff_exists'.1 hsome
  refine ⟨total, htotal, ?_⟩
  rw [eq_clamp_of_totalCost? htotal]
  exact min_costSum h

/-- The total of a list of nodes is what the policy asks for, up to the largest count. -/
structure CostsExactly (config : Config) (nodes : List Node) : Prop where
  /-- There is no total when the parameters of a gadget do not resolve, and only then. -/
  eq_none_iff : config.totalCost? nodes = none ↔ ∃ node ∈ nodes, config.Unresolved node
  /-- When the parameters of all gadgets resolve, the total is the sum over the nodes, or the
  largest number of 64 bits if that is less. -/
  eq_some : (∀ node ∈ nodes, ¬ config.Unresolved node) →
    ∃ total, config.totalCost? nodes = some total ∧
      total.toNat = min (2 ^ 64 - 1) (config.policySum nodes)
  /-- The nodes may come in any order. -/
  perm : ∀ nodes' : List Node, nodes'.Perm nodes →
    config.totalCost? nodes' = config.totalCost? nodes
  /-- Further nodes whose parameters resolve neither supply a missing total nor make one missing. -/
  append_eq_none : ∀ added : List Node, (∀ node ∈ added, ¬ config.Unresolved node) →
    (config.totalCost? (nodes ++ added) = none ↔ config.totalCost? nodes = none)
  /-- Further nodes whose parameters resolve never lower a total, and the time that is reported is
  never a faster one. -/
  append_le : ∀ added : List Node, (∀ node ∈ added, ¬ config.Unresolved node) →
    ∀ total, config.totalCost? nodes = some total →
      ∃ total', config.totalCost? (nodes ++ added) = some total' ∧ total.toNat ≤ total'.toNat ∧
        timeRank (Estimate.ofNodes config nodes).time ≤
          timeRank (Estimate.ofNodes config (nodes ++ added)).time

/-- The total of every list of nodes is what the policy asks for, up to the largest count. -/
theorem costsExactly (config : Config) (nodes : List Node) : config.CostsExactly nodes where
  eq_none_iff := totalCost?_eq_none_iff_unresolved
  eq_some h := by
    obtain ⟨total, htotal, hclamps⟩ := exists_clamps_policySum h
    exact ⟨total, htotal, hclamps.trans (Nat.min_comm _ _)⟩
  perm nodes' hperm := by
    by_cases h : ∃ node ∈ nodes, config.Unresolved node
    · have h' : ∃ node ∈ nodes', config.Unresolved node := by simpa [hperm.mem_iff] using h
      rw [totalCost?_eq_none_iff_unresolved.2 h, totalCost?_eq_none_iff_unresolved.2 h']
    · push Not at h
      have h' : ∀ node ∈ nodes', ¬ config.Unresolved node := fun node hnode =>
        h node (hperm.subset hnode)
      obtain ⟨total, htotal, -⟩ := exists_clamps_policySum h
      obtain ⟨total', htotal', -⟩ := exists_clamps_policySum h'
      rw [htotal, htotal', eq_clamp_of_totalCost? htotal, eq_clamp_of_totalCost? htotal',
        costSum_of_perm hperm]
  append_eq_none added hadded := by
    rw [totalCost?_eq_none_iff_unresolved, totalCost?_eq_none_iff_unresolved]
    constructor
    · rintro ⟨node, hnode, hunresolved⟩
      rcases List.mem_append.1 hnode with hnode | hnode
      · exact ⟨node, hnode, hunresolved⟩
      · exact absurd hunresolved (hadded node hnode)
    · rintro ⟨node, hnode, hunresolved⟩
      exact ⟨node, List.mem_append_left _ hnode, hunresolved⟩
  append_le added hadded total htotal := by
    have hnodes : ¬ ∃ node ∈ nodes, config.Unresolved node := by
      rw [← totalCost?_eq_none_iff_unresolved, htotal]
      simp
    push Not at hnodes
    have hboth : ∀ node ∈ nodes ++ added, ¬ config.Unresolved node := fun node hnode =>
      (List.mem_append.1 hnode).elim (hnodes node) (hadded node)
    obtain ⟨total', htotal', -⟩ := exists_clamps_policySum hboth
    have hle : total.toNat ≤ total'.toNat := by
      rw [eq_clamp_of_totalCost? htotal, eq_clamp_of_totalCost? htotal', Count.toNat_clamp,
        Count.toNat_clamp, costSum_append]
      omega
    refine ⟨total', htotal', hle, ?_⟩
    rw [Estimate.ofNodes, Estimate.ofNodes, htotal, htotal']
    exact timeRank_mono hle

end Config

end CircuitGraph
