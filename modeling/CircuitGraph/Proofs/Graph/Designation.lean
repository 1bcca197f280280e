import CircuitGraph.Graph.Basic
import Mathlib.Data.List.Nodup

/-!
# Edges by their ids

An edge is looked up and removed by its id, and of several edges with one id the first one is meant.
So an id leads to an edge at a position (`Graph.Designates`) when no edge before it has the same id,
and otherwise it leads to another one (`Graph.designates_iff`).
-/

namespace CircuitGraph.Graph

/-- An id leads to the edge at a position. -/
structure Designates (g : Graph) (id : String) (i : Nat) : Prop where
  /-- The edge at the position is found. -/
  found : ∃ edge, g.edges[i]? = some edge ∧ g.edge? id = some edge
  /-- The edge at the position is removed, and the others stay in place and in order. -/
  removed : g.removeEdge id = { g with edges := g.edges.eraseIdx i }

variable {g : Graph} {i : Nat} {edge : Edge}

/-- The id of an edge leads to the edge when no edge before it has the same id. -/
theorem designates_of_forall_ne (hi : g.edges[i]? = some edge)
    (h : ∀ j < i, ∀ other, g.edges[j]? = some other → other.id ≠ edge.id) :
    g.Designates edge.id i := by
  obtain ⟨hlength, hget⟩ := List.getElem?_eq_some_iff.1 hi
  have hbefore : ∀ (j : Nat) (hj : j < i), ¬ (g.edges[j].id == edge.id) = true := by
    intro j hj heq
    exact h j hj g.edges[j] (List.getElem?_eq_getElem _) (eq_of_beq heq)
  constructor
  · refine ⟨edge, hi, List.find?_eq_some_iff_getElem.2 ⟨beq_self_eq_true _, i, hlength, hget, ?_⟩⟩
    intro j hj
    simpa using hbefore j hj
  · have hfind : g.edges.findIdx? (fun other => other.id == edge.id) = some i :=
      List.findIdx?_eq_some_iff_getElem.2 ⟨hlength, by rw [hget]; exact beq_self_eq_true _, hbefore⟩
    rw [removeEdge, List.eraseP_eq_eraseIdx, hfind]

/-- Among distinct edges, the id of an edge leads to the edge only when no edge before it has the
same id. -/
theorem designates_iff (hedges : g.edges.Nodup) (hi : g.edges[i]? = some edge) :
    g.Designates edge.id i ↔ ∀ j < i, ∀ other, g.edges[j]? = some other → other.id ≠ edge.id := by
  refine ⟨fun h j hj other hother hid => ?_, designates_of_forall_ne hi⟩
  obtain ⟨found, hfound, hedge⟩ := h.found
  obtain rfl : edge = found := Option.some.inj (hi.symm.trans hfound)
  obtain ⟨-, k, hk, hget, hbefore⟩ := List.find?_eq_some_iff_getElem.1 hedge
  -- the edge that is found is the first one with the id, so it does not stand behind the other one
  have hkj : k ≤ j := by
    by_contra hlt
    obtain ⟨hj', rfl⟩ := List.getElem?_eq_some_iff.1 hother
    simpa [hid] using hbefore j (Nat.lt_of_not_le hlt)
  have hki : k = i := by
    obtain ⟨hi', hget'⟩ := List.getElem?_eq_some_iff.1 hi
    exact hedges.getElem_inj_iff.1 (hget.trans hget'.symm)
  omega

end CircuitGraph.Graph
