import CircuitGraph.Proofs.Order.Mirror
import CircuitGraph.Proofs.Order.Verdict
import CircuitGraph.Proofs.Validation.Beside

/-!
# The linear order of two circuits on one canvas

Placing takes the least vertex that waits for nothing, wherever it stands, so the linear order of
two graphs on one canvas goes to and fro between them. When the graphs have nothing to do with each
other and both have a linear order, then so have both together, and what it shows of either graph is
the linear order of that graph (`Graph.Apart.exists_linearize`): each graph mirrors its vertices on
the canvas.
-/

namespace CircuitGraph

open CircuitGraph.Validation

/-- The same node as many positions back in the list. -/
def Vertex.unshift (n : Nat) (v : Vertex) : Vertex := ⟨v.position - n, v.node⟩

/-- Moving back undoes moving on. -/
@[simp] theorem Vertex.unshift_shift (n : Nat) (v : Vertex) : (v.shift n).unshift n = v := by
  simp [unshift, shift]

namespace Index.Part

variable {keep : Vertex → Bool} {n m : Nat} {part whole : Index} (h : Part keep n m part whole)

include h

/-- A part of an index without shared ids mirrors the vertices that are kept. -/
theorem mirror (hids : (whole.vertices.map Vertex.id).Nodup) :
    whole.Mirror keep (Vertex.unshift n) part where
  vertices := by
    rw [h.vertices, List.map_map]
    simp only [Function.comp_def, Vertex.unshift_shift, List.map_id']
  ends := by
    rw [h.wires, List.map_map]
    simp only [Function.comp_def, Wire.shift, Vertex.unshift_shift]
  closed w hw hkeep := (h.closed w hw).trans hkeep
  position_eq_iff u hu v hv hkeepU hkeepV := by
    obtain ⟨a, -, rfl⟩ := h.exists_shift hu hkeepU
    obtain ⟨b, -, rfl⟩ := h.exists_shift hv hkeepV
    rw [Vertex.unshift_shift, Vertex.unshift_shift, Vertex.position_shift, Vertex.position_shift,
      Nat.add_right_cancel_iff]
  nodup_ids := hids
  id_lt_iff _ _ _ _ := Iff.rfl

/-- What the linear order of the whole shows of a part is the linear order of the part. -/
theorem filter_linearize (hwhole : whole.Sound) (hpart : part.Sound)
    {order partOrder : LinearOrder} (horder : whole.linearize = .ok order)
    (hpartOrder : part.linearize = .ok partOrder) :
    order.vertices.filter keep = partOrder.vertices.map (Vertex.shift n) := by
  have hmirror :=
    (h.mirror (hwhole.nodup_ids_of_linearize horder)).linearize hwhole hpart horder
  obtain rfl : ⟨part, (order.vertices.filter keep).map (Vertex.unshift n)⟩ = partOrder :=
    Except.ok.inj (hmirror.symm.trans hpartOrder)
  obtain ⟨-, hperm, -⟩ := Index.linearize_spec hwhole horder
  have hback : ∀ v ∈ order.vertices.filter keep, (v.unshift n).shift n = v := by
    intro v hv
    obtain ⟨hmem, hkeep⟩ := List.mem_filter.1 hv
    obtain ⟨u, -, rfl⟩ := h.exists_shift (hperm.subset hmem) hkeep
    rw [Vertex.unshift_shift]
  rw [List.map_map]
  exact ((List.map_congr_left hback).trans (List.map_id' _)).symm

/-- What the linear order of the whole shows of a part after pruning is what is left of the order of
the part. -/
theorem filter_pruned (hwhole : whole.Sound) (hpart : part.Sound) {order partOrder : LinearOrder}
    (horder : whole.linearize = .ok order) (hpartOrder : part.linearize = .ok partOrder) :
    order.pruned.vertices.filter keep = partOrder.pruned.vertices.map (Vertex.shift n) := by
  obtain ⟨hindex, -⟩ := Index.linearize_spec hwhole horder
  obtain ⟨hindexPart, hperm, -⟩ := Index.linearize_spec hpart hpartOrder
  simp only [LinearOrder.pruned, hindex, hindexPart]
  rw [List.filter_comm, h.filter_linearize hwhole hpart horder hpartOrder, List.filter_map]
  refine congrArg _ (List.filter_congr fun v hv => ?_)
  rw [Function.comp_apply, Bool.eq_iff_iff, List.contains_iff_mem, List.contains_iff_mem,
    Vertex.position_shift, h.mem_useful_iff hwhole hpart (hperm.subset hv)]

/-- The nodes that are left of the order of a part are those of the kept vertices that are left of
the linear order of the whole. -/
theorem map_node_pruned (hwhole : whole.Sound) (hpart : part.Sound) {order partOrder : LinearOrder}
    (horder : whole.linearize = .ok order) (hpartOrder : part.linearize = .ok partOrder) :
    partOrder.pruned.vertices.map Vertex.node =
      (order.pruned.vertices.filter keep).map Vertex.node := by
  rw [h.filter_pruned hwhole hpart horder hpartOrder, List.map_map]
  rfl

end Index.Part

namespace Graph.Apart

variable {g h : Graph} (ha : g.Apart h)

include ha

/-- Two graphs with a linear order have one together, which shows of each of them its own. -/
theorem exists_linearize {left right : LinearOrder} (hleft : g.linearize = .ok left)
    (hright : h.linearize = .ok right) :
    ∃ order, (g.beside h).linearize = .ok order ∧
      order.vertices.filter (fun v => v.position < g.nodes.length) = left.vertices ∧
      order.vertices.filter (fun v => g.nodes.length ≤ v.position) =
        right.vertices.map (Vertex.shift g.nodes.length) := by
  have hi := (g.beside h).index_sound
  obtain ⟨hids, hcycles⟩ := g.index_sound.exists_linearize_iff_checks.1 ⟨left, hleft⟩
  obtain ⟨hids', hcycles'⟩ := h.index_sound.exists_linearize_iff_checks.1 ⟨right, hright⟩
  have hidsBoth : Validation.duplicateIds (g.beside h).index = [] := by
    rw [ha.duplicateIds, hids, hids', List.append_nil]
  have hcyclesBoth : Validation.cyclesDetected (g.beside h).index = [] := by
    rw [ha.cyclesDetected, hcycles, hcycles', List.append_nil]
  obtain ⟨order, horder⟩ := hi.exists_linearize_iff_checks.2 ⟨hidsBoth, hcyclesBoth⟩
  refine ⟨order, horder, ?_, ha.right_part.filter_linearize hi h.index_sound horder hright⟩
  exact (ha.left_part.filter_linearize hi g.index_sound horder hleft).trans (List.map_id' _)

end Graph.Apart

end CircuitGraph
