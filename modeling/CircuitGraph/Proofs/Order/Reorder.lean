import CircuitGraph.Proofs.Graph.Reorder
import CircuitGraph.Proofs.Order.Linear

/-!
# The linear order does not depend on the order of listing

Among the vertices that wait for nothing the one with the least id is placed next. When no id is
shared there is exactly one such vertex, whatever the order in which they are listed
(`leastById_of_perm`). So placing runs in lock step on two indexes that differ only in the order of
listing (`Index.Reordered.place_move`): the degrees stay the same at moved positions, the waiting
vertices stay permutations of each other, and in each step a vertex and its move are placed. The
linear order of the one index is then that of the other, moved (`Index.Reordered.linearize`).
-/

namespace CircuitGraph

variable {σ : Equiv.Perm Nat}

/-- The least of moved vertices is the moved least one. -/
theorem leastById_of_perm {vs vs' : List Vertex} (hids : (vs.map Vertex.id).Nodup)
    (hperm : (vs.map (Vertex.move σ)).Perm vs') :
    leastById vs' = (leastById vs).map (Vertex.move σ) := by
  cases hleast : leastById vs with
  | none =>
    rw [leastById_eq_none hleast, List.map_nil, List.nil_perm] at hperm
    rw [hperm]
    rfl
  | some v =>
    have hv : v ∈ vs := mem_of_leastById hleast
    cases hleast' : leastById vs' with
    | none =>
      rw [leastById_eq_none hleast', List.perm_nil, List.map_eq_nil_iff] at hperm
      rw [hperm] at hv
      cases hv
    | some v' =>
      obtain ⟨u, hu, rfl⟩ := List.mem_map.1 (hperm.mem_iff.2 (mem_of_leastById hleast'))
      -- neither of the two least vertices has a lesser id than the other
      have hle : ¬ u.id < v.id := not_id_lt_of_leastById hleast u hu
      have hge : ¬ v.id < u.id :=
        not_id_lt_of_leastById hleast' (v.move σ) (hperm.mem_iff.1 (List.mem_map_of_mem hv))
      have hid : u.id = v.id := String.le_antisymm (String.not_lt.1 hge) (String.not_lt.1 hle)
      rw [List.inj_on_of_nodup_map hids hu hv hid, Option.map_some]

/-- The least of the vertices that wait for nothing is moved when the degrees are. -/
theorem leastById_ready_of_perm {degrees degrees' : Degrees} {waiting waiting' : List Vertex}
    (hids : (waiting.map Vertex.id).Nodup)
    (hwaiting : (waiting.map (Vertex.move σ)).Perm waiting')
    (hdegrees : ∀ p, degrees'.degreeOf (σ p) = degrees.degreeOf p) :
    leastById (waiting'.filter fun v => degrees'.degreeOf v.position == 0) =
      (leastById (waiting.filter fun v => degrees.degreeOf v.position == 0)).map
        (Vertex.move σ) := by
  refine leastById_of_perm (hids.sublist (List.filter_sublist.map _)) ?_
  have hfilter := hwaiting.filter fun v => degrees'.degreeOf v.position == 0
  rw [List.filter_map] at hfilter
  simpa only [Function.comp_def, Vertex.position_move, hdegrees] using hfilter

namespace Index.Reordered

variable {index index' : Index} (h : index.Reordered σ index')

include h

/-- At first the degrees are the same at moved positions. -/
theorem degreeOf_degrees (hi : index.Sound) (hi' : index'.Sound) (p : Nat) :
    index'.degrees.degreeOf (σ p) = index.degrees.degreeOf p := by
  have howners : ∀ v, v.move σ ∈ index'.owners ↔ v ∈ index.owners := fun v => by
    rw [← h.owners.mem_iff, List.mem_map_of_injective (Vertex.move_injective σ)]
  have hcount := h.wires.countP_eq fun k => k.2.2.position = σ p ∧ k.2.1 ∈ index'.owners
  rw [List.countP_map, List.countP_map] at hcount
  rw [counted_degrees hi, counted_degrees hi', waitingInto, waitingInto]
  simpa only [Function.comp_def, Vertex.position_move, EmbeddingLike.apply_eq_iff_eq, howners] using
    hcount.symm

/-- Placing a vertex and placing its move lower the degrees alike. -/
theorem degreeOf_release {degrees degrees' : Degrees}
    (hdegrees : ∀ p, degrees'.degreeOf (σ p) = degrees.degreeOf p) (v : Vertex) (p : Nat) :
    (index'.release (v.move σ) degrees').degreeOf (σ p) = (index.release v degrees).degreeOf p := by
  have hcount := (h.outgoing v.position).countP_eq fun q => q = σ p
  rw [List.countP_map, List.countP_map] at hcount
  rw [Index.release, Index.release, Degrees.degreeOf_foldl_lower, Degrees.degreeOf_foldl_lower,
    hdegrees, Vertex.position_move]
  simpa only [Function.comp_def, EmbeddingLike.apply_eq_iff_eq] using
    congrArg (degrees.degreeOf p - ·) hcount.symm

/-- Placing runs in lock step: what is placed, and what is left behind, is moved. -/
theorem place_move {degrees degrees' : Degrees} {waiting waiting' : List Vertex}
    (hids : (waiting.map Vertex.id).Nodup)
    (hwaiting : (waiting.map (Vertex.move σ)).Perm waiting')
    (hdegrees : ∀ p, degrees'.degreeOf (σ p) = degrees.degreeOf p) :
    (place index' degrees' waiting').1 =
        (place index degrees waiting).1.map (Vertex.move σ) ∧
      ((place index degrees waiting).2.map (Vertex.move σ)).Perm
        (place index' degrees' waiting').2 := by
  have hready := leastById_ready_of_perm hids hwaiting hdegrees
  fun_induction place index degrees waiting generalizing degrees' waiting' with
  | case1 degrees waiting hnone =>
    rw [hnone, Option.map_none] at hready
    rw [place]
    split
    · exact ⟨rfl, hwaiting⟩
    · rename_i v' hsome
      rw [hready] at hsome
      cases hsome
  | case2 degrees waiting v hleast placed left heq ih =>
    rw [heq] at ih
    rw [hleast, Option.map_some] at hready
    rw [place]
    split
    · rename_i hnone
      rw [hready] at hnone
      cases hnone
    · rename_i v' hsome
      obtain rfl : v.move σ = v' := Option.some.inj (hready.symm.trans hsome)
      -- one vertex less waits on both sides, and the degrees are those after its release
      have hids' : ((waiting.erase v).map Vertex.id).Nodup :=
        hids.sublist (List.erase_sublist.map _)
      have hwaiting' : ((waiting.erase v).map (Vertex.move σ)).Perm
          (waiting'.erase (v.move σ)) := by
        rw [List.map_erase (Vertex.move_injective σ)]
        exact hwaiting.erase _
      have hdegrees' := h.degreeOf_release hdegrees v
      obtain ⟨hplaced, hleft⟩ := ih hids' hwaiting' hdegrees'
        (leastById_ready_of_perm hids' hwaiting' hdegrees')
      exact ⟨congrArg (v.move σ :: ·) hplaced, hleft⟩

/-- Placing the owners runs in lock step. -/
theorem place_owners (hi : index.Sound) (hi' : index'.Sound) :
    (place index' index'.degrees index'.owners).1 =
        (place index index.degrees index.owners).1.map (Vertex.move σ) ∧
      ((place index index.degrees index.owners).2.map (Vertex.move σ)).Perm
        (place index' index'.degrees index'.owners).2 :=
  h.place_move (h.nodup_ids.sublist (List.filter_sublist.map _)) h.owners
    (h.degreeOf_degrees hi hi')

/-- The linear order is moved. -/
theorem linearize (hi : index.Sound) (hi' : index'.Sound) {order : LinearOrder}
    (horder : index.linearize = .ok order) :
    index'.linearize = .ok ⟨index', order.vertices.map (Vertex.move σ)⟩ := by
  obtain ⟨-, hplace, -⟩ := Index.linearize_eq_ok_iff.1 horder
  obtain ⟨hplaced, hleft⟩ := h.place_owners hi hi'
  rw [hplace] at hplaced hleft
  exact Index.linearize_eq_ok_iff.2
    ⟨Index.find?_isShadowed h.nodup_ids', Prod.ext hplaced (List.nil_perm.1 hleft), rfl⟩

/-- What is left of a moved order after pruning is moved too. -/
theorem pruned (hi : index.Sound) (hi' : index'.Sound) (vs : List Vertex) :
    (LinearOrder.mk index' (vs.map (Vertex.move σ))).pruned.vertices =
      (LinearOrder.mk index vs).pruned.vertices.map (Vertex.move σ) := by
  simp only [LinearOrder.pruned, List.filter_map, Function.comp_def, Vertex.position_move,
    h.contains_useful hi hi']

end Index.Reordered

end CircuitGraph
