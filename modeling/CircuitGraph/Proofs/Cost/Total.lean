import CircuitGraph.Cost.Estimate
import Mathlib.Algebra.BigOperators.Group.List.Basic
import Mathlib.Algebra.GroupWithZero.Nat

/-!
# Totals of costs

The total is counted up node by node and clamped at every step. Clamping once at the end gives the
same (`Config.eq_clamp_of_totalCost?`), so totals depend neither on the order of the nodes nor on
how they are grouped.
-/

namespace CircuitGraph

namespace Config

variable {config : Config}

/-- The costs of the nodes that have one, added without a bound. -/
def costSum (config : Config) (nodes : List Node) : Nat :=
  (nodes.map fun node => (config.nodeCost? node).elim 0 Count.toNat).sum

/-- The sum of no costs. -/
@[simp] theorem costSum_nil : config.costSum [] = 0 := rfl

/-- The sum with one node more. -/
@[simp] theorem costSum_cons (node : Node) (nodes : List Node) :
    config.costSum (node :: nodes) =
      (config.nodeCost? node).elim 0 Count.toNat + config.costSum nodes := rfl

/-- The sum for two lists of nodes. -/
@[simp] theorem costSum_append (nodes nodes' : List Node) :
    config.costSum (nodes ++ nodes') = config.costSum nodes + config.costSum nodes' := by
  rw [costSum, List.map_append, List.sum_append]
  rfl

/-- The sum does not depend on the order of the nodes. -/
theorem costSum_of_perm {nodes nodes' : List Node} (h : nodes.Perm nodes') :
    config.costSum nodes = config.costSum nodes' := (h.map _).sum_eq

/-- There is no total when some node has no cost, and only then. -/
theorem totalCost?_eq_none_iff {nodes : List Node} :
    config.totalCost? nodes = none ↔ ∃ node ∈ nodes, config.nodeCost? node = none := by
  unfold totalCost?
  generalize (0 : Count) = start
  induction nodes generalizing start with
  | nil => simp
  | cons node nodes ih =>
    rw [List.foldlM_cons, List.exists_mem_cons_iff]
    cases hcost : config.nodeCost? node with
    | none => simp
    | some cost => simpa using ih (start + cost)

/-- The costs of nodes add up when each of them has one. -/
theorem exists_totalCost? {nodes : List Node}
    (h : ∀ node ∈ nodes, ∃ cost, config.nodeCost? node = some cost) :
    ∃ total, config.totalCost? nodes = some total := by
  refine Option.ne_none_iff_exists'.1 fun hnone => ?_
  obtain ⟨node, hnode, hcost⟩ := totalCost?_eq_none_iff.1 hnone
  exact Option.ne_none_iff_exists'.2 (h node hnode) hcost

/-- The total is the sum of the costs, clamped. -/
theorem eq_clamp_of_totalCost? {nodes : List Node} {total : Count}
    (h : config.totalCost? nodes = some total) : total = Count.clamp (config.costSum nodes) := by
  -- at each step, the clamped count so far stands for the sum so far
  have hall : ∀ (nodes : List Node) (start : Count),
      nodes.foldlM (fun total node => (config.nodeCost? node).map (total + ·)) start =
        some total → total = Count.clamp (start.toNat + config.costSum nodes) := by
    intro nodes
    induction nodes with
    | nil =>
      intro start hstart
      obtain rfl : start = total := Option.some.inj hstart
      rw [costSum_nil, Nat.add_zero]
      exact Count.ext (Nat.min_eq_left start.le_max).symm
    | cons node nodes ih =>
      intro start hstart
      rw [List.foldlM_cons] at hstart
      cases hcost : config.nodeCost? node with
      | none =>
        rw [hcost] at hstart
        cases hstart
      | some cost =>
        rw [hcost] at hstart
        refine (ih (start + cost) hstart).trans (Count.ext ?_)
        rw [Count.toNat_clamp, Count.toNat_clamp, Count.toNat_add, costSum_cons, hcost,
          Option.elim_some]
        omega
  have htotal := hall nodes 0 h
  have hzero : (0 : Count).toNat = 0 := rfl
  rwa [hzero, Nat.zero_add] at htotal

end Config

end CircuitGraph
