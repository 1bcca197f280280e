import CircuitGraph.Proofs.Graph.Image
import CircuitGraph.Proofs.Order.Mirror

/-!
# The linear order of an image

An image mirrors the kept vertices, so its linear order is the kept part of the linear order, under
`φ` (`Index.Image.linearize`). All outputs are kept, so this is also so for what remains of the
order after pruning (`Index.Image.pruned`).
-/

namespace CircuitGraph

namespace Index.Image

variable {keep : Vertex → Bool} {φ : Vertex → Vertex} {index index' : Index}
  (h : index.Image keep φ index')

include h

/-- The linear order of the image is the kept part of the linear order. -/
theorem linearize (hi : index.Sound) (hi' : index'.Sound) {order : LinearOrder}
    (horder : index.linearize = .ok order) :
    index'.linearize = .ok ⟨index', (order.vertices.filter keep).map φ⟩ :=
  h.mirror.linearize hi hi' horder

/-- What is left of the order of the image after pruning is the image of what is left of the order.
Nothing that feeds an output is missing in the image. -/
theorem pruned (hi : index.Sound) (hi' : index'.Sound) {vs : List Vertex}
    (hvs : ∀ v ∈ vs, v ∈ index.vertices) :
    (LinearOrder.mk index' ((vs.filter keep).map φ)).pruned.vertices =
      (LinearOrder.mk index vs).pruned.vertices.map φ := by
  simp only [LinearOrder.pruned, List.filter_map, List.filter_filter, Function.comp_def]
  refine congrArg _ (List.filter_congr fun v hv => ?_)
  rw [Bool.eq_iff_iff, Bool.and_eq_true, List.contains_iff_mem, List.contains_iff_mem,
    h.mem_useful_iff hi hi' (hvs v hv)]
  exact ⟨And.left, fun huseful =>
    ⟨huseful, (h.mem_useful_image hi hi' (hvs v hv) huseful).1⟩⟩

/-- The image has a linear order that is, after pruning, the image of the order. -/
theorem exists_pruned (hi : index.Sound) (hi' : index'.Sound) {order : LinearOrder}
    (horder : index.linearize = .ok order) :
    ∃ order', index'.linearize = .ok order' ∧ order'.index = index' ∧
      order'.pruned.vertices = order.pruned.vertices.map φ := by
  obtain ⟨hindex, hperm, -⟩ := Index.linearize_spec hi horder
  refine ⟨_, h.linearize hi hi' horder, rfl, ?_⟩
  rw [h.pruned hi hi' fun v hv => hperm.subset hv, ← hindex]

end Index.Image

end CircuitGraph
