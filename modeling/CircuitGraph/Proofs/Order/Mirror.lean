import CircuitGraph.Proofs.Graph.Mirror
import CircuitGraph.Proofs.Order.Linear

/-!
# The linear order of a mirror

A vertex that is kept waits for kept vertices only, so leaving out the others changes neither when
it may be placed nor which of the kept vertices comes first. `Index.Mirror.place` runs the two
placements in lock step: where the one places a kept vertex, the other places its image, and where
the one places a vertex that is not kept, the other does nothing. The linear order of the mirror is
then the kept part of the linear order, under `φ` (`Index.Mirror.linearize`).
-/

namespace CircuitGraph

/-- Among vertices with distinct ids the least one is the one that no other one precedes. -/
theorem leastById_eq_some_iff {vs : List Vertex} (hids : (vs.map Vertex.id).Nodup) {v : Vertex} :
    leastById vs = some v ↔ v ∈ vs ∧ ∀ u ∈ vs, ¬ u.id < v.id := by
  refine ⟨fun h => ⟨mem_of_leastById h, not_id_lt_of_leastById h⟩, fun ⟨hv, hle⟩ => ?_⟩
  cases hleast : leastById vs with
  | none =>
    rw [leastById_eq_none hleast] at hv
    cases hv
  | some w =>
    have hw := mem_of_leastById hleast
    have hid : w.id = v.id := String.le_antisymm
      (String.not_lt.1 (not_id_lt_of_leastById hleast v hv)) (String.not_lt.1 (hle w hw))
    rw [List.inj_on_of_nodup_map hids hw hv hid]

/-- At first the degree at a position is the number of wires that arrive there. -/
theorem Index.Sound.degreeOf_degrees {index : Index} (hi : index.Sound) (p : Nat) :
    index.degrees.degreeOf p = (index.incoming p).length := by
  rw [Index.counted_degrees hi, Index.waitingInto, Index.incoming, ← List.countP_eq_length_filter]
  refine List.countP_congr fun w hw => ?_
  simp [hi.source_mem_owners hw]

/-- Placing a vertex lowers the degree at a position by the number of its wires that lead there. -/
theorem Index.degreeOf_release (index : Index) (v : Vertex) (degrees : Degrees) (p : Nat) :
    (index.release v degrees).degreeOf p = degrees.degreeOf p -
      ((index.outgoing v.position).map fun w => w.target).countP fun t => t.position = p := by
  rw [Index.release, Degrees.degreeOf_foldl_lower, List.countP_map]
  rfl

namespace Index.Mirror

variable {keep : Vertex → Bool} {φ : Vertex → Vertex} {index index' : Index}

/-- The images that wait for nothing are those of the kept vertices that wait for nothing. -/
theorem filter_ready {degrees degrees' : Degrees} {waiting : List Vertex}
    (hdegrees : ∀ u ∈ waiting, keep u = true →
      degrees'.degreeOf (φ u).position = degrees.degreeOf u.position) :
    ((waiting.filter keep).map φ).filter (fun v => degrees'.degreeOf v.position == 0) =
      ((waiting.filter fun v => degrees.degreeOf v.position == 0).filter keep).map φ := by
  rw [List.filter_map, List.filter_filter, List.filter_filter]
  refine congrArg _ (List.filter_congr fun u hu => ?_)
  cases hkeep : keep u with
  | false => simp
  | true => simp [hdegrees u hu hkeep]

/-- Taking away a vertex that is not kept leaves the kept ones. -/
theorem filter_erase_of_not_keep {waiting : List Vertex} (hnodup : waiting.Nodup) {v : Vertex}
    (hdrop : keep v = false) : (waiting.erase v).filter keep = waiting.filter keep := by
  rw [hnodup.erase_eq_filter, List.filter_filter]
  refine List.filter_congr fun u _ => ?_
  by_cases huv : u = v
  · simp [huv, hdrop]
  · simp [huv]

variable (h : index.Mirror keep φ index')

include h

/-- The least image is the image of the least vertex. -/
theorem leastById_map {vs : List Vertex} (hvs : vs.Sublist index.vertices) {v : Vertex}
    (hleast : leastById vs = some v) : leastById (vs.map φ) = some (φ v) := by
  have hids : (vs.map Vertex.id).Nodup := h.nodup_ids.sublist (hvs.map _)
  have hids' : ((vs.map φ).map Vertex.id).Nodup := by
    rw [List.map_map]
    refine (hids.of_map _).map_on fun u hu w hw hid => ?_
    exact List.inj_on_of_nodup_map hids hu hw
      ((h.id_eq_iff (hvs.subset hu) (hvs.subset hw)).1 hid)
  obtain ⟨hv, hle⟩ := (leastById_eq_some_iff hids).1 hleast
  refine (leastById_eq_some_iff hids').2 ⟨List.mem_map_of_mem hv, ?_⟩
  rintro u' hu'
  obtain ⟨u, hu, rfl⟩ := List.mem_map.1 hu'
  rw [h.id_lt_iff u (hvs.subset hu) v (hvs.subset hv)]
  exact hle u hu

/-! ## Degrees -/

/-- At first the degrees of images are those of the kept vertices. -/
theorem degreeOf_degrees (hi : index.Sound) (hi' : index'.Sound) {v : Vertex}
    (hv : v ∈ index.vertices) (hkeep : keep v = true) :
    index'.degrees.degreeOf (φ v).position = index.degrees.degreeOf v.position := by
  rw [hi.degreeOf_degrees, hi'.degreeOf_degrees, h.length_incoming hi hv hkeep]

/-- Placing a kept vertex and placing its image lower the degrees alike. -/
theorem degreeOf_release (hi : index.Sound) {degrees degrees' : Degrees} {v u : Vertex}
    (hv : v ∈ index.vertices) (hkeepV : keep v = true) (hu : u ∈ index.vertices)
    (hkeep : keep u = true)
    (hdegrees : degrees'.degreeOf (φ u).position = degrees.degreeOf u.position) :
    (index'.release (φ v) degrees').degreeOf (φ u).position =
      (index.release v degrees).degreeOf u.position := by
  have htargets : ((index'.outgoing (φ v).position).map fun w => w.target).countP
        (fun t => t.position = (φ u).position) =
      ((index.outgoing v.position).map fun w => w.target).countP
        fun t => t.position = u.position := by
    rw [h.map_outgoing hi hv hkeepV, List.countP_map, List.countP_map, List.countP_filter]
    refine List.countP_congr fun w hw => ?_
    have htarget := hi.target_mem_vertices (mem_outgoing.1 hw).1
    simp only [Function.comp_apply, decide_eq_true_eq, Bool.and_eq_true]
    -- a wire that leads to a kept vertex is one of those that have an image
    constructor
    · rintro ⟨hposition, hkeepTarget⟩
      exact (h.position_eq_iff _ htarget _ hu hkeepTarget hkeep).1 hposition
    · intro hposition
      rw [hi.eq_of_position_eq htarget hu hposition]
      exact ⟨rfl, hkeep⟩
  rw [Index.degreeOf_release, Index.degreeOf_release, hdegrees, htargets]

/-- Placing a vertex that is not kept does not matter to the kept ones. -/
theorem degreeOf_release_of_not_keep (hi : index.Sound) (degrees : Degrees) {v u : Vertex}
    (hv : v ∈ index.vertices) (hdrop : keep v = false) (hu : u ∈ index.vertices)
    (hkeep : keep u = true) :
    (index.release v degrees).degreeOf u.position = degrees.degreeOf u.position := by
  have hnone : ((index.outgoing v.position).map fun w => w.target).countP
      (fun t => t.position = u.position) = 0 := by
    rw [List.countP_map, List.countP_eq_zero]
    intro w hw
    obtain ⟨hwire, hsource⟩ := mem_outgoing.1 hw
    simp only [Function.comp_apply, decide_eq_true_eq]
    intro htarget
    have hkeepTarget : keep w.target = true := by
      rwa [hi.eq_of_position_eq (hi.target_mem_vertices hwire) hu htarget]
    have hkeepSource := h.closed w hwire hkeepTarget
    rw [hi.eq_of_position_eq (hi.source_mem_vertices hwire) hv hsource, hdrop] at hkeepSource
    cases hkeepSource
  rw [Index.degreeOf_release, hnone, Nat.sub_zero]

/-! ## Placing -/

/-- The least image among those that wait for nothing is the image of the least such vertex, when
that one is kept. -/
theorem leastById_ready {degrees degrees' : Degrees} {waiting : List Vertex}
    (hwaiting : waiting.Sublist index.vertices)
    (hdegrees : ∀ u ∈ waiting, keep u = true →
      degrees'.degreeOf (φ u).position = degrees.degreeOf u.position) {v : Vertex}
    (hleast : leastById (waiting.filter fun v => degrees.degreeOf v.position == 0) = some v)
    (hkeep : keep v = true) :
    leastById (((waiting.filter keep).map φ).filter fun v =>
      degrees'.degreeOf v.position == 0) = some (φ v) := by
  rw [filter_ready hdegrees]
  have hsub : ((waiting.filter fun v => degrees.degreeOf v.position == 0).filter
      keep).Sublist index.vertices :=
    (List.filter_sublist.trans List.filter_sublist).trans hwaiting
  have hids := h.nodup_ids.sublist (hsub.map Vertex.id)
  have hmem := List.mem_filter.2 ⟨mem_of_leastById hleast, hkeep⟩
  have hle := not_id_lt_of_leastById hleast
  exact h.leastById_map hsub ((leastById_eq_some_iff hids).2
    ⟨hmem, fun u hu => hle u (List.mem_filter.1 hu).1⟩)

/-- Taking away the image of a vertex leaves the images of the others. -/
theorem erase_map (hi : index.Sound) {waiting : List Vertex}
    (hwaiting : waiting.Sublist index.vertices) {v : Vertex} (hv : v ∈ waiting)
    (hkeep : keep v = true) :
    ((waiting.filter keep).map φ).erase (φ v) = ((waiting.erase v).filter keep).map φ := by
  have hnodup : waiting.Nodup := hi.nodup_vertices.sublist hwaiting
  have hinj : ∀ u ∈ waiting, ∀ w ∈ waiting, keep u = true → keep w = true →
      φ u = φ w → u = w := fun u hu w hw hkeepU hkeepW heq =>
    hi.eq_of_position_eq (hwaiting.subset hu) (hwaiting.subset hw)
      ((h.position_eq_iff u (hwaiting.subset hu) w (hwaiting.subset hw) hkeepU hkeepW).1
        (congrArg _ heq))
  have hnodup' : ((waiting.filter keep).map φ).Nodup := by
    refine (hnodup.filter _).map_on fun u hu w hw => ?_
    obtain ⟨hu, hkeepU⟩ := List.mem_filter.1 hu
    obtain ⟨hw, hkeepW⟩ := List.mem_filter.1 hw
    exact hinj u hu w hw hkeepU hkeepW
  rw [hnodup'.erase_eq_filter, hnodup.erase_eq_filter, List.filter_map, List.filter_filter,
    List.filter_filter]
  refine congrArg _ (List.filter_congr fun u hu => ?_)
  cases hkeepU : keep u with
  | false => simp
  | true =>
    have hiff : φ u = φ v ↔ u = v := ⟨hinj u hu v hv hkeepU hkeep, fun heq => by rw [heq]⟩
    simp only [Function.comp_apply, bne, beq_eq_decide, hiff, Bool.and_comm]

/-- Placing runs in lock step on the kept vertices and their images. -/
theorem place (hi : index.Sound) {degrees degrees' : Degrees} {waiting : List Vertex}
    (hwaiting : waiting.Sublist index.vertices)
    (hdegrees : ∀ u ∈ waiting, keep u = true →
      degrees'.degreeOf (φ u).position = degrees.degreeOf u.position) :
    CircuitGraph.place index' degrees' ((waiting.filter keep).map φ) =
      (((CircuitGraph.place index degrees waiting).1.filter keep).map φ,
        ((CircuitGraph.place index degrees waiting).2.filter keep).map φ) := by
  fun_induction CircuitGraph.place index degrees waiting generalizing degrees' with
  | case1 degrees waiting hnone =>
    have hready := filter_ready hdegrees
    rw [leastById_eq_none hnone] at hready
    rw [CircuitGraph.place, hready]
    rfl
  | case2 degrees waiting v hleast placed left heq ih =>
    rw [heq] at ih
    have hv : v ∈ waiting := (List.mem_filter.1 (mem_of_leastById hleast)).1
    have hnodup : waiting.Nodup := hi.nodup_vertices.sublist hwaiting
    have herase : (waiting.erase v).Sublist index.vertices := List.erase_sublist.trans hwaiting
    cases hkeep : keep v with
    | false =>
      -- nothing happens on the side of the images
      have hdegrees' : ∀ u ∈ waiting.erase v, keep u = true →
          degrees'.degreeOf (φ u).position = (index.release v degrees).degreeOf u.position := by
        intro u hu hkeepU
        rw [h.degreeOf_release_of_not_keep hi degrees (hwaiting.subset hv) hkeep
          (herase.subset hu) hkeepU, hdegrees u (List.mem_of_mem_erase hu) hkeepU]
      have hrest := ih herase hdegrees'
      rw [filter_erase_of_not_keep hnodup hkeep] at hrest
      rw [hrest, List.filter_cons_of_neg (by simp [hkeep])]
    | true =>
      have hleast' := h.leastById_ready hwaiting hdegrees hleast hkeep
      have hdegrees' : ∀ u ∈ waiting.erase v, keep u = true →
          (index'.release (φ v) degrees').degreeOf (φ u).position =
            (index.release v degrees).degreeOf u.position := fun u hu hkeepU =>
        h.degreeOf_release hi (hwaiting.subset hv) hkeep (herase.subset hu) hkeepU
          (hdegrees u (List.mem_of_mem_erase hu) hkeepU)
      have hrest := ih herase hdegrees'
      rw [CircuitGraph.place]
      split
      · rename_i hnone
        rw [hleast'] at hnone
        cases hnone
      · rename_i v' hsome
        obtain rfl : φ v = v' := Option.some.inj (hleast'.symm.trans hsome)
        rw [h.erase_map hi hwaiting hv hkeep, hrest, List.filter_cons_of_pos hkeep, List.map_cons]

/-! ## The order of the mirror -/

/-- The linear order of the mirror is the kept part of the linear order. -/
theorem linearize (hi : index.Sound) (hi' : index'.Sound) {order : LinearOrder}
    (horder : index.linearize = .ok order) :
    index'.linearize = .ok ⟨index', (order.vertices.filter keep).map φ⟩ := by
  obtain ⟨-, hplace, -⟩ := Index.linearize_eq_ok_iff.1 horder
  refine Index.linearize_eq_ok_iff.2 ⟨Index.find?_isShadowed h.nodup_ids', ?_, rfl⟩
  have hlock := h.place hi (List.Sublist.refl _) fun u hu hkeep =>
    h.degreeOf_degrees hi hi' hu hkeep
  rw [owners_eq_vertices h.nodup_ids] at hplace
  rw [hplace] at hlock
  rw [owners_eq_vertices h.nodup_ids', h.vertices, hlock]
  rfl

end Index.Mirror

end CircuitGraph
