import CircuitGraph.Proofs.Graph.Path
import Mathlib.Data.List.Find

/-!
# Part of an index

Circuits may stand side by side on one canvas, and then each of them takes up a stretch of the nodes
and a stretch of the edges. `Index.Part keep n m part whole` says that the vertices of `whole` that
are kept are those of `part`, in order and `n` positions further on, that the wires into them are
those of `part`, `m` positions further on, and that nothing joins them to the other vertices, be it
a wire or a shared id.

What the later stages ask of a vertex of the part has then the same answer in the whole, up to the
positions: who owns an id, what arrives at the vertex and what leaves it, and whether it is fed or
useful.
-/

namespace CircuitGraph

/-! ## Moving on -/

/-- The same node further on in the list. -/
def Vertex.shift (n : Nat) (v : Vertex) : Vertex := ⟨v.position + n, v.node⟩

/-- The same edge further on in the list, with its ends moved on as well. -/
def Wire.shift (n m : Nat) (w : Wire) : Wire :=
  ⟨w.position + m, w.edge, w.source.shift n, w.target.shift n⟩

namespace Vertex

variable (n : Nat) (v : Vertex)

/-- The position of a vertex that is moved on. -/
@[simp] theorem position_shift : (v.shift n).position = v.position + n := rfl

/-- The node of a vertex that is moved on. -/
@[simp] theorem node_shift : (v.shift n).node = v.node := rfl

/-- The id of a vertex that is moved on. -/
@[simp] theorem id_shift : (v.shift n).id = v.id := rfl

/-- A vertex that is moved on leaves as many positions free. -/
theorem le_position_shift : n ≤ (v.shift n).position := Nat.le_add_left n v.position

end Vertex

/-- An index that is found in another one from position `n` of the nodes and `m` of the edges on,
and that nothing joins to the rest. -/
structure Index.Part (keep : Vertex → Bool) (n m : Nat) (part whole : Index) : Prop where
  /-- The kept vertices are those of the part, in order. -/
  vertices : whole.vertices.filter keep = part.vertices.map (Vertex.shift n)
  /-- The wires into kept vertices are those of the part, in order. -/
  wires : (whole.wires.filter fun w => keep w.target) = part.wires.map (Wire.shift n m)
  /-- A wire joins two vertices that are kept or two that are not. -/
  closed : ∀ w ∈ whole.wires, keep w.source = keep w.target
  /-- An id is shared by vertices that are kept or by vertices that are not. -/
  apart : ∀ u ∈ whole.vertices, ∀ v ∈ whole.vertices, u.id = v.id → keep u = keep v

namespace Index.Part

variable {keep : Vertex → Bool} {n m : Nat} {part whole : Index} (h : Part keep n m part whole)

include h

/-- A vertex of the part is a kept vertex of the whole. -/
theorem shift_mem {v : Vertex} (hv : v ∈ part.vertices) :
    v.shift n ∈ whole.vertices ∧ keep (v.shift n) = true := by
  have hmem : v.shift n ∈ whole.vertices.filter keep := by
    rw [h.vertices]
    exact List.mem_map_of_mem hv
  exact List.mem_filter.1 hmem

/-- A kept vertex of the whole is a vertex of the part. -/
theorem exists_shift {v' : Vertex} (hv' : v' ∈ whole.vertices) (hkeep : keep v' = true) :
    ∃ v ∈ part.vertices, v.shift n = v' := by
  have hmem : v' ∈ whole.vertices.filter keep := List.mem_filter.2 ⟨hv', hkeep⟩
  rw [h.vertices] at hmem
  exact List.mem_map.1 hmem

/-! ## Owners -/

/-- The owner of an id that no other vertex has is the owner in the part. -/
theorem lookup? {id : String} (hid : ∀ v ∈ whole.vertices, v.id = id → keep v = true) :
    whole.lookup? id = (part.lookup? id).map (Vertex.shift n) := by
  have hfilter : whole.lookup? id = (whole.vertices.filter keep).find? fun v => v.id == id := by
    rw [Index.lookup?, owner?, List.find?_filter]
    refine List.find?_congr fun v hv => ?_
    rw [Bool.eq_iff_iff, decide_eq_true_eq, beq_iff_eq]
    exact ⟨fun heq => ⟨hid v hv heq, heq⟩, And.right⟩
  rw [hfilter, h.vertices, List.find?_map]
  rfl

/-- The owner of the id of a vertex of the part is the owner in the part. -/
theorem lookup?_id {v : Vertex} (hv : v ∈ part.vertices) :
    whole.lookup? v.id = (part.lookup? v.id).map (Vertex.shift n) := by
  obtain ⟨hmem, hkeep⟩ := h.shift_mem hv
  exact h.lookup? fun u hu hid => (h.apart u hu _ hmem hid).trans hkeep

/-- A vertex of the part is shadowed in the whole when it is in the part. -/
theorem isShadowed_shift {v : Vertex} (hv : v ∈ part.vertices) :
    whole.isShadowed (v.shift n) = part.isShadowed v := by
  rw [isShadowed, isShadowed, Vertex.id_shift, h.lookup?_id hv]
  cases part.lookup? v.id with
  | none => rfl
  | some first =>
    show (first.position + n != v.position + n) = (first.position != v.position)
    simp only [bne, beq_eq_decide, Nat.add_right_cancel_iff]

/-- A vertex of the part owns its id in the whole when it does in the part. -/
theorem shift_mem_owners {v : Vertex} (hv : v ∈ part.vertices) :
    v.shift n ∈ whole.owners ↔ v ∈ part.owners := by
  rw [Index.owners, Index.owners, List.mem_filter, List.mem_filter, h.isShadowed_shift hv]
  simp only [h.shift_mem hv, hv, true_and]

/-! ## Wires -/

/-- A wire of the part is a wire of the whole. -/
theorem shift_mem_wires {w : Wire} (hw : w ∈ part.wires) : w.shift n m ∈ whole.wires := by
  have hmem : w.shift n m ∈ whole.wires.filter fun w => keep w.target := by
    rw [h.wires]
    exact List.mem_map_of_mem hw
  exact (List.mem_filter.1 hmem).1

variable (hwhole : whole.Sound)

include hwhole

/-- A vertex at the position of one of the part is that one. -/
theorem eq_shift {v v' : Vertex} (hv : v ∈ part.vertices) (hv' : v' ∈ whole.vertices)
    (hposition : v'.position = v.position + n) : v' = v.shift n :=
  hwhole.eq_of_position_eq hv' (h.shift_mem hv).1 hposition

/-- The same wires arrive at a vertex of the part. -/
theorem incoming {v : Vertex} (hv : v ∈ part.vertices) :
    whole.incoming (v.position + n) = (part.incoming v.position).map (Wire.shift n m) := by
  have hkept : whole.incoming (v.position + n) =
      (whole.wires.filter fun w => keep w.target).filter fun w =>
        w.target.position == v.position + n := by
    rw [Index.incoming, List.filter_filter]
    refine List.filter_congr fun w hw => ?_
    rw [Bool.eq_iff_iff, Bool.and_eq_true, beq_iff_eq]
    refine ⟨fun hposition => ⟨hposition, ?_⟩, And.left⟩
    rw [h.eq_shift hwhole hv (hwhole.target_mem_vertices hw) hposition]
    exact (h.shift_mem hv).2
  rw [hkept, h.wires, List.filter_map, Index.incoming]
  refine congrArg _ (List.filter_congr fun w _ => ?_)
  show (w.target.position + n == v.position + n) = (w.target.position == v.position)
  simp only [beq_eq_decide, Nat.add_right_cancel_iff]

/-- The same wires leave a vertex of the part. -/
theorem outgoing {v : Vertex} (hv : v ∈ part.vertices) :
    whole.outgoing (v.position + n) = (part.outgoing v.position).map (Wire.shift n m) := by
  have hkept : whole.outgoing (v.position + n) =
      (whole.wires.filter fun w => keep w.target).filter fun w =>
        w.source.position == v.position + n := by
    rw [Index.outgoing, List.filter_filter]
    refine List.filter_congr fun w hw => ?_
    rw [Bool.eq_iff_iff, Bool.and_eq_true, beq_iff_eq]
    refine ⟨fun hposition => ⟨hposition, ?_⟩, And.left⟩
    rw [← h.closed w hw, h.eq_shift hwhole hv (hwhole.source_mem_vertices hw) hposition]
    exact (h.shift_mem hv).2
  rw [hkept, h.wires, List.filter_map, Index.outgoing]
  refine congrArg _ (List.filter_congr fun w _ => ?_)
  show (w.source.position + n == v.position + n) = (w.source.position == v.position)
  simp only [beq_eq_decide, Nat.add_right_cancel_iff]

/-! ## Paths -/

variable (hpart : part.Sound)

include hpart

/-- A path to a vertex of the part is a path in the part. -/
theorem exists_path_to {v : Vertex} (hv : v ∈ part.vertices) {a : Nat}
    (hpath : Relation.ReflTransGen whole.Leads a (v.position + n)) :
    ∃ u ∈ part.vertices, u.position + n = a ∧
      Relation.ReflTransGen part.Leads u.position v.position := by
  induction hpath using Relation.ReflTransGen.head_induction_on with
  | refl => exact ⟨v, hv, rfl, .refl⟩
  | head hstep _ ih =>
    obtain ⟨u, hu, rfl, hpath⟩ := ih
    have hsource := Index.mem_sources_iff.2 hstep
    rw [h.incoming hwhole hu, List.map_map] at hsource
    obtain ⟨w, hw, rfl⟩ := List.mem_map.1 hsource
    obtain ⟨hwire, htarget⟩ := mem_incoming.1 hw
    exact ⟨w.source, hpart.source_mem_vertices hwire, rfl, .head ⟨w, hwire, rfl, htarget⟩ hpath⟩

/-- A path from a vertex of the part is a path in the part. -/
theorem exists_path_from {v : Vertex} (hv : v ∈ part.vertices) {b : Nat}
    (hpath : Relation.ReflTransGen whole.Leads (v.position + n) b) :
    ∃ u ∈ part.vertices, u.position + n = b ∧
      Relation.ReflTransGen part.Leads v.position u.position := by
  induction hpath with
  | refl => exact ⟨v, hv, rfl, .refl⟩
  | tail _ hstep ih =>
    obtain ⟨u, hu, rfl, hpath⟩ := ih
    have htarget := Index.mem_targets_iff.2 hstep
    rw [h.outgoing hwhole hu, List.map_map] at htarget
    obtain ⟨w, hw, rfl⟩ := List.mem_map.1 htarget
    obtain ⟨hwire, hsource⟩ := mem_outgoing.1 hw
    exact ⟨w.target, hpart.target_mem_vertices hwire, rfl, hpath.tail ⟨w, hwire, hsource, rfl⟩⟩

omit hwhole hpart in
/-- A path in the part is a path in the whole. -/
theorem path_shift {a b : Nat} (hpath : Relation.ReflTransGen part.Leads a b) :
    Relation.ReflTransGen whole.Leads (a + n) (b + n) := by
  refine hpath.lift (· + n) ?_
  rintro _ _ ⟨w, hw, rfl, rfl⟩
  exact ⟨w.shift n m, h.shift_mem_wires hw, rfl, rfl⟩

/-- A vertex of the part is fed in the whole when it is in the part. -/
theorem mem_fed_iff {v : Vertex} (hv : v ∈ part.vertices) :
    v.position + n ∈ whole.fed ↔ v.position ∈ part.fed := by
  rw [hwhole.mem_fed_iff, hpart.mem_fed_iff]
  constructor
  · rintro ⟨input, hinput, hwholePath⟩
    obtain ⟨u, hu, hposition, hpath⟩ := h.exists_path_to hwhole hpart hv hwholePath
    obtain rfl := h.eq_shift hwhole hu (mem_vertices_of_mem_inputs hinput) hposition.symm
    obtain ⟨howner, hkind⟩ := List.mem_filter.1 hinput
    exact ⟨u, List.mem_filter.2 ⟨(h.shift_mem_owners hu).1 howner, hkind⟩, hpath⟩
  · rintro ⟨u, hu, hpath⟩
    obtain ⟨howner, hkind⟩ := List.mem_filter.1 hu
    have howner' := (h.shift_mem_owners (mem_vertices_of_mem_owners howner)).2 howner
    exact ⟨u.shift n, List.mem_filter.2 ⟨howner', hkind⟩, h.path_shift hpath⟩

/-- A vertex of the part is useful in the whole when it is in the part. -/
theorem mem_useful_iff {v : Vertex} (hv : v ∈ part.vertices) :
    v.position + n ∈ whole.useful ↔ v.position ∈ part.useful := by
  rw [hwhole.mem_useful_iff, hpart.mem_useful_iff]
  constructor
  · rintro ⟨output, houtput, hwholePath⟩
    obtain ⟨u, hu, hposition, hpath⟩ := h.exists_path_from hwhole hpart hv hwholePath
    obtain rfl := h.eq_shift hwhole hu (mem_vertices_of_mem_outputs houtput) hposition.symm
    obtain ⟨howner, hkind⟩ := List.mem_filter.1 houtput
    exact ⟨u, List.mem_filter.2 ⟨(h.shift_mem_owners hu).1 howner, hkind⟩, hpath⟩
  · rintro ⟨u, hu, hpath⟩
    obtain ⟨howner, hkind⟩ := List.mem_filter.1 hu
    have howner' := (h.shift_mem_owners (mem_vertices_of_mem_owners howner)).2 howner
    exact ⟨u.shift n, List.mem_filter.2 ⟨howner', hkind⟩, h.path_shift hpath⟩

end Index.Part

end CircuitGraph
