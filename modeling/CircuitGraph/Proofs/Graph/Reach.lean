import CircuitGraph.Proofs.Graph.Index

/-!
# What the search reaches

`mem_closure_iff` says that `closure` marks exactly what a path from the pending positions reaches
through unmarked ones. The one direction is that the marked positions are closed under `next`
(`mem_closure_of_next`); the other follows each marked position back to where it was found. Read on
an index, a position is fed when a path leads to it from an input, and useful when a path leads from
it to an output.
-/

namespace CircuitGraph

/-- A pending position that is unmarked gets marked. -/
theorem mem_closure_of_pending {next : Nat → List Nat} {unmarked pending : List Nat} {p : Nat}
    (hp : p ∈ pending) (hu : p ∈ unmarked) : p ∈ closure next unmarked pending := by
  fun_induction closure next unmarked pending with
  | case1 => cases hp
  | case2 unmarked v pending hv ih =>
    by_cases hpv : p = v
    · exact hpv ▸ List.mem_cons_self
    · have hp' : p ∈ next v ++ pending :=
        List.mem_append_right _ ((List.mem_cons.1 hp).resolve_left hpv)
      exact List.mem_cons_of_mem _ (ih hp' ((List.mem_erase_of_ne hpv).2 hu))
  | case3 unmarked v pending hv ih =>
    rcases List.mem_cons.1 hp with rfl | hp
    · exact absurd hu hv
    · exact ih hp hu

/-- Whatever follows a marked position and was unmarked gets marked. -/
theorem mem_closure_of_next {next : Nat → List Nat} {unmarked pending : List Nat} {p q : Nat}
    (hp : p ∈ closure next unmarked pending) (hq : q ∈ next p) (hu : q ∈ unmarked) :
    q ∈ closure next unmarked pending := by
  fun_induction closure next unmarked pending with
  | case1 => cases hp
  | case2 unmarked v pending hv ih =>
    by_cases hqv : q = v
    · exact hqv ▸ List.mem_cons_self
    · have hu' : q ∈ unmarked.erase v := (List.mem_erase_of_ne hqv).2 hu
      refine List.mem_cons_of_mem _ ?_
      -- what follows the position just marked becomes pending; the rest is marked later
      rcases List.mem_cons.1 hp with rfl | hp
      · exact mem_closure_of_pending (List.mem_append_left _ hq) hu'
      · exact ih hp hu'
  | case3 unmarked v pending hv ih => exact ih hp hu

/-- A path leads to each marked position from a pending one. -/
theorem exists_path_of_mem_closure {next : Nat → List Nat} {unmarked pending : List Nat} {p : Nat}
    (hp : p ∈ closure next unmarked pending) :
    ∃ s ∈ pending, s ∈ unmarked ∧ Relation.ReflTransGen (fun a b => b ∈ next a) s p := by
  fun_induction closure next unmarked pending with
  | case1 => cases hp
  | case2 unmarked v pending hv ih =>
    rcases List.mem_cons.1 hp with rfl | hp
    · exact ⟨p, List.mem_cons_self, hv, .refl⟩
    · obtain ⟨s, hs, hu, hpath⟩ := ih hp
      -- a path that starts behind the marked position is continued backwards to it
      rcases List.mem_append.1 hs with hs | hs
      · exact ⟨v, List.mem_cons_self, hv, .head hs hpath⟩
      · exact ⟨s, List.mem_cons_of_mem _ hs, List.mem_of_mem_erase hu, hpath⟩
  | case3 unmarked v pending hv ih =>
    obtain ⟨s, hs, hu, hpath⟩ := ih hp
    exact ⟨s, List.mem_cons_of_mem _ hs, hu, hpath⟩

/-- The search marks exactly what it can reach, provided that `next` stays among the unmarked
positions. -/
theorem mem_closure_iff {next : Nat → List Nat} {unmarked pending : List Nat}
    (hnext : ∀ a, ∀ b ∈ next a, b ∈ unmarked) {p : Nat} :
    p ∈ closure next unmarked pending ↔
      ∃ s ∈ pending, s ∈ unmarked ∧ Relation.ReflTransGen (fun a b => b ∈ next a) s p := by
  refine ⟨exists_path_of_mem_closure, ?_⟩
  rintro ⟨s, hs, hu, hpath⟩
  induction hpath with
  | refl => exact mem_closure_of_pending hs hu
  | tail _ hstep ih => exact mem_closure_of_next ih hstep (hnext _ _ hstep)

namespace Index

/-- What is reached along a wire is the position of a vertex. -/
theorem Sound.target_mem_positions {index : Index} (hi : index.Sound) {p q : Nat}
    (hq : q ∈ (index.outgoing p).map fun w => w.target.position) : q ∈ index.positions := by
  obtain ⟨w, hw, rfl⟩ := List.mem_map.1 hq
  have htarget := hi.target_mem_owners (mem_outgoing.1 hw).1
  exact List.mem_map_of_mem (mem_vertices_of_mem_owners htarget)

/-- What is reached against a wire is the position of a vertex. -/
theorem Sound.source_mem_positions {index : Index} (hi : index.Sound) {p q : Nat}
    (hq : q ∈ (index.incoming p).map fun w => w.source.position) : q ∈ index.positions := by
  obtain ⟨w, hw, rfl⟩ := List.mem_map.1 hq
  have hsource := hi.source_mem_owners (mem_incoming.1 hw).1
  exact List.mem_map_of_mem (mem_vertices_of_mem_owners hsource)

/-- An output feeds an output. -/
theorem position_mem_useful_of_mem_outputs {index : Index} {v : Vertex} (hv : v ∈ index.outputs) :
    v.position ∈ index.useful := by
  have howner : v ∈ index.owners := (List.mem_filter.1 hv).1
  exact mem_closure_of_pending (List.mem_map_of_mem hv)
    (List.mem_map_of_mem (mem_vertices_of_mem_owners howner))

/-- The source of a wire feeds an output when its target does. -/
theorem Sound.source_mem_useful {index : Index} (hi : index.Sound) {w : Wire}
    (hw : w ∈ index.wires) (ht : w.target.position ∈ index.useful) :
    w.source.position ∈ index.useful := by
  have hnext : w.source.position ∈
      (index.incoming w.target.position).map fun w => w.source.position :=
    List.mem_map_of_mem (f := fun w : Wire => w.source.position) (mem_incoming.2 ⟨hw, rfl⟩)
  have hsource := mem_vertices_of_mem_owners (hi.source_mem_owners hw)
  exact mem_closure_of_next ht hnext (List.mem_map_of_mem hsource)

end Index

end CircuitGraph
