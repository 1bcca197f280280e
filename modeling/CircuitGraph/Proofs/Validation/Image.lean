import CircuitGraph.Proofs.Order.Image
import CircuitGraph.Proofs.Validation.Participation

/-!
# The checks of an image

What validation accepts is accepted again after vertices that feed nothing have been left out, and
under other ids and labels (`Index.Image.accepted`). The checks of single vertices see the same
kinds and the same wires. That there is no cycle is seen from the linear order, which the image
inherits.
-/

namespace CircuitGraph

open CircuitGraph.Validation

namespace Index.Image

variable {config : Config} {keep : Vertex → Bool} {φ : Vertex → Vertex} {index index' : Index}
  (h : index.Image keep φ index') (hi : index.Sound) (hi' : index'.Sound)

include h hi hi'

/-- The image has no cycle when the index has none. -/
theorem acyclic (hac : index.Acyclic) : index'.Acyclic := by
  have hunique : ∀ v ∈ index.vertices, index.isShadowed v = false := fun _ =>
    not_isShadowed_of_nodup h.nodup_ids
  obtain ⟨order, horder⟩ := Index.exists_linearize hi hac hunique
  obtain ⟨-, hplace, -⟩ := Index.linearize_eq_ok_iff.1 (h.linearize hi hi' horder)
  exact acyclic_of_cyclesDetected hi' (hi'.cyclesDetected_eq_nil_iff.2 (by rw [hplace]))

/-- The image is accepted when the index is. -/
theorem accepted (ha : index.Accepted config) : index'.Accepted config where
  unique _ hv := not_isShadowed_of_nodup h.nodup_ids' hv
  links := h.links
  acyclic := h.acyclic hi hi' ha.acyclic
  wired := by
    intro v' hv' hports port hport
    obtain ⟨v, hv, hkeep, rfl⟩ := h.mem_vertices.1 (mem_vertices_of_mem_owners hv')
    have howner : v ∈ index.owners := by rwa [owners_eq_vertices h.nodup_ids]
    have hsame : (φ v).node.ports = v.node.ports := Node.ports_eq_of_unlabelled (h.unlabelled_eq v)
    rw [hsame] at hports hport
    have hincoming := congrArg (fun l => l.map fun k => k.2.1) (h.map_incoming hi hv hkeep)
    simp only [List.map_map, Function.comp_def] at hincoming
    rw [hincoming]
    exact ha.wired v howner hports port hport
  resolves := by
    intro v' hv' gadget params hkind
    obtain ⟨v, hv, -, rfl⟩ := h.mem_vertices.1 (mem_vertices_of_mem_owners hv')
    have howner : v ∈ index.owners := by rwa [owners_eq_vertices h.nodup_ids]
    exact ha.resolves v howner gadget params
      (Node.kind_eq_gadget_of_unlabelled (h.unlabelled_eq v) hkind)

/-- The image has no fatal diagnostic when the index has none. -/
theorem hasFatal_validate (hc : config.Accepted)
    (hfatal : hasFatal (index.validate config) = false) :
    hasFatal (index'.validate config) = false := by
  have ha := accepted_of_hasFatal hi hfatal
  obtain ⟨v, hv⟩ := List.exists_mem_of_ne_nil _ (outputs_ne_nil hi hfatal)
  have hv' := (h.mem_outputs (mem_vertices_of_mem_outputs hv)).2 hv
  exact (h.accepted hi hi' ha).hasFatal_validate hc hi' (List.ne_nil_of_mem hv')

end Index.Image

end CircuitGraph
