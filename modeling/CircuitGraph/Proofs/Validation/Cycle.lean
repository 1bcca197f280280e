import CircuitGraph.Proofs.Graph.Index
import CircuitGraph.Validation.Check
import Mathlib.Data.List.TakeWhile

/-!
# What the search for cycles finds

What the depth-first search reports is a cycle: each of its vertices has a wire from another one of
them (`exists_cycle_of_mem_cyclesDetected`). The invariant is that every vertex of the path has a
wire from the next one outwards (`IsPath`).
-/

namespace CircuitGraph.Validation

variable {index : Index}

/-- The search only uses up fresh positions. -/
theorem follow_sublist (index : Index) (fresh : List Nat) (path : List Frame) :
    (follow index fresh path).2.Sublist fresh := by
  fun_induction follow index fresh path with
  | case1 => exact .refl _
  | case2 fresh v path ih => exact ih
  | case3 fresh v w pending path h ih => exact ih.trans List.erase_sublist
  | case4 fresh v w pending path h hany cycles fresh' heq ih =>
    rw [heq] at ih
    exact ih
  | case5 fresh v w pending path h hany ih => exact ih

/-- In a list whose neighbours are related, what stands before an element is related to what stands
before it or to the element. -/
theorem exists_related_of_isChain {α : Type} {R : α → α → Prop} {before after : List α} {u : α}
    (h : (before ++ u :: after).IsChain R) {v : α} (hv : v ∈ before) :
    ∃ x ∈ u :: before, R v x := by
  induction before with
  | nil => cases hv
  | cons b before ih =>
    cases before with
    | nil =>
      rw [List.mem_singleton.1 hv]
      exact ⟨u, List.mem_cons_self, (List.isChain_cons_cons.1 h).1⟩
    | cons c before =>
      obtain ⟨hbc, hrest⟩ := List.isChain_cons_cons.1 h
      rcases List.mem_cons.1 hv with rfl | hv
      · exact ⟨c, by simp, hbc⟩
      · obtain ⟨x, hx, hR⟩ := ih hrest hv
        refine ⟨x, ?_, hR⟩
        rcases List.mem_cons.1 hx with rfl | hx
        · exact List.mem_cons_self
        · exact List.mem_cons_of_mem _ (List.mem_cons_of_mem _ hx)

/-- What is known of the vertices of a path: they own their ids, the wires that are to be followed
leave them, and each one has a wire from the next one outwards. -/
structure IsPath (index : Index) (path : List Frame) : Prop where
  /-- Every vertex owns its id. -/
  owners : ∀ f ∈ path, f.vertex ∈ index.owners
  /-- The wires to be followed leave the vertex. -/
  pending : ∀ f ∈ path, ∀ w ∈ f.pending, w ∈ index.outgoing f.vertex.position
  /-- Each vertex has a wire from the next one outwards. -/
  chain : (path.map Frame.vertex).IsChain fun v u => ∃ w ∈ index.incoming v.position, w.source = u

namespace IsPath

/-- Nothing is asked of an empty path. -/
theorem nil (index : Index) : IsPath index [] := ⟨nofun, nofun, .nil⟩

/-- A path begins at any vertex that owns its id. -/
theorem start {root : Vertex} (h : root ∈ index.owners) :
    IsPath index [⟨root, index.outgoing root.position⟩] where
  owners := by simpa using h
  pending := by simp
  chain := .singleton _

variable {v : Vertex} {w : Wire} {pending : List Wire} {path : List Frame}

/-- What is left of a path behind its innermost vertex is a path. -/
theorem pop {f : Frame} (h : IsPath index (f :: path)) : IsPath index path where
  owners g hg := h.owners g (List.mem_cons_of_mem _ hg)
  pending g hg := h.pending g (List.mem_cons_of_mem _ hg)
  chain := h.chain.tail

/-- A path remains one when a wire has been followed. -/
theorem skip (h : IsPath index (⟨v, w :: pending⟩ :: path)) :
    IsPath index (⟨v, pending⟩ :: path) where
  owners := by
    rw [List.forall_mem_cons]
    exact ⟨h.owners ⟨v, w :: pending⟩ List.mem_cons_self, h.pop.owners⟩
  pending := by
    rw [List.forall_mem_cons]
    have hpending := h.pending _ List.mem_cons_self
    exact ⟨fun u hu => hpending u (List.mem_cons_of_mem _ hu), h.pop.pending⟩
  chain := h.chain

/-- The wire to be followed next comes from the innermost vertex. -/
theorem source_eq (hi : index.Sound) (h : IsPath index (⟨v, w :: pending⟩ :: path)) :
    w ∈ index.incoming w.target.position ∧ w.source = v := by
  have hw := h.pending _ List.mem_cons_self w List.mem_cons_self
  obtain ⟨hmem, hposition⟩ := Index.mem_outgoing.1 hw
  refine ⟨Index.mem_incoming.2 ⟨hmem, rfl⟩, hi.eq_of_position_eq ?_ ?_ hposition⟩
  · exact Index.mem_vertices_of_mem_owners (hi.source_mem_owners hmem)
  · exact Index.mem_vertices_of_mem_owners (h.owners _ List.mem_cons_self)

/-- Going on along a wire keeps a path. -/
theorem push (hi : index.Sound) (h : IsPath index (⟨v, w :: pending⟩ :: path)) :
    IsPath index (⟨w.target, index.outgoing w.target.position⟩ :: ⟨v, pending⟩ :: path) where
  owners := by
    obtain ⟨hw, -⟩ := h.source_eq hi
    rw [List.forall_mem_cons]
    exact ⟨hi.target_mem_owners (Index.mem_incoming.1 hw).1, h.skip.owners⟩
  pending := by
    rw [List.forall_mem_cons]
    exact ⟨fun u hu => hu, h.skip.pending⟩
  chain := by
    obtain ⟨hw, hsource⟩ := h.source_eq hi
    exact List.isChain_cons_cons.2 ⟨⟨w, hw, hsource⟩, h.chain⟩

/-- A path that meets a position has its owner behind the vertices before it. -/
theorem exists_split (hi : index.Sound) (h : IsPath index path) {t : Vertex}
    (ht : t ∈ index.owners) (hon : path.any (fun f => f.vertex.position == t.position) = true) :
    ∃ after, path.map Frame.vertex =
      ((path.map Frame.vertex).takeWhile fun u => u.position != t.position) ++ t :: after := by
  let other := fun u : Vertex => u.position != t.position
  have hne : (path.map Frame.vertex).dropWhile other ≠ [] := by
    obtain ⟨f, hf, hposition⟩ := List.any_eq_true.1 hon
    intro hnil
    have hother := List.dropWhile_eq_nil_iff.1 hnil f.vertex (List.mem_map_of_mem hf)
    exact bne_iff_ne.1 hother (beq_iff_eq.1 hposition)
  obtain ⟨u, after, hdrop⟩ := List.exists_cons_of_ne_nil hne
  have hsplit := List.takeWhile_append_dropWhile (p := other) (l := path.map Frame.vertex)
  rw [hdrop] at hsplit
  refine ⟨after, ?_⟩
  -- the first vertex at the position is the owner itself, for a vertex is known by its position
  have hut : u = t := by
    have hhead := List.head?_dropWhile_not other (path.map Frame.vertex)
    rw [hdrop] at hhead
    have hu : u ∈ path.map Frame.vertex := hsplit ▸ List.mem_append_right _ List.mem_cons_self
    obtain ⟨f, hf, rfl⟩ := List.mem_map.1 hu
    exact hi.eq_of_position_eq (Index.mem_vertices_of_mem_owners (h.owners f hf))
      (Index.mem_vertices_of_mem_owners ht) (by simpa [other] using hhead)
  rw [hut] at hsplit
  exact hsplit.symm

/-- The part of a path from the target of a wire on feeds itself when the wire leaves its innermost
vertex. -/
theorem selfFed (hi : index.Sound) (h : IsPath index (⟨v, w :: pending⟩ :: path))
    (hon : (⟨v, pending⟩ :: path).any (fun f => f.vertex.position == w.target.position) = true) :
    index.SelfFed (w.target :: pathFrom (⟨v, pending⟩ :: path) w.target.position) := by
  obtain ⟨hw, hsource⟩ := h.source_eq hi
  have htarget := hi.target_mem_owners (Index.mem_incoming.1 hw).1
  obtain ⟨after, hsplit⟩ := h.skip.exists_split hi htarget hon
  have hchain := h.skip.chain
  have howners : ∀ u ∈ (⟨v, pending⟩ :: path : List Frame).map Frame.vertex, u ∈ index.owners := by
    intro u hu
    obtain ⟨f, hf, rfl⟩ := List.mem_map.1 hu
    exact h.skip.owners f hf
  have hfirst : ((⟨v, pending⟩ :: path : List Frame).map Frame.vertex).head? = some v := rfl
  rw [pathFrom]
  generalize ((⟨v, pending⟩ :: path : List Frame).map Frame.vertex).takeWhile
    (fun u => u.position != w.target.position) = before at hsplit ⊢
  rw [hsplit] at hchain howners hfirst
  intro u hu
  rcases List.mem_cons.1 hu with rfl | hu
  · refine ⟨htarget, w, hw, ?_⟩
    rw [hsource]
    cases before with
    | nil =>
      rw [Option.some.inj hfirst]
      exact List.mem_cons_self
    | cons b before =>
      rw [← Option.some.inj hfirst]
      exact List.mem_cons_of_mem _ (List.mem_reverse.2 List.mem_cons_self)
  · have hbefore := List.mem_reverse.1 hu
    obtain ⟨x, hx, u', hu', hux⟩ := exists_related_of_isChain hchain hbefore
    refine ⟨howners u (List.mem_append_left _ hbefore), u', hu', ?_⟩
    rw [hux]
    rcases List.mem_cons.1 hx with rfl | hx
    · exact List.mem_cons_self
    · exact List.mem_cons_of_mem _ (List.mem_reverse.2 hx)

end IsPath

/-- A cycle that the search closes feeds itself. -/
theorem selfFed_of_mem_follow (hi : index.Sound) {fresh : List Nat} {path : List Frame}
    (hpath : IsPath index path) {cycle : List Vertex} (h : cycle ∈ (follow index fresh path).1) :
    index.SelfFed cycle := by
  fun_induction follow index fresh path with
  | case1 => cases h
  | case2 fresh v path ih => exact ih hpath.pop h
  | case3 fresh v w pending path hw ih => exact ih (hpath.push hi) h
  | case4 fresh v w pending path hw hany cycles fresh' heq ih =>
    rw [heq] at ih
    rcases List.mem_cons.1 h with rfl | h
    · exact hpath.selfFed hi hany
    · exact ih hpath.skip h
  | case5 fresh v w pending path hw hany ih => exact ih hpath.skip h

/-- A cycle that the search closes from some root feeds itself. -/
theorem selfFed_of_mem_searchFrom (hi : index.Sound) {fresh : List Nat} {roots : List Vertex}
    (hroots : ∀ root ∈ roots, root ∈ index.owners) {cycle : List Vertex}
    (h : cycle ∈ searchFrom index fresh roots) : index.SelfFed cycle := by
  induction roots generalizing fresh with
  | nil => cases h
  | cons root roots ih =>
    rw [List.forall_mem_cons] at hroots
    unfold searchFrom at h
    split at h
    · rcases List.mem_append.1 h with h | h
      · exact selfFed_of_mem_follow hi (.start hroots.1) h
      · exact ih hroots.2 h
    · exact ih hroots.2 h

/-- A report of a cycle names the vertices of a list that feeds itself: the first of them as the
node concerned, and all of them in the message, from the first one back to itself. -/
theorem exists_cycle_of_mem_cyclesDetected (hi : index.Sound) {d : Diagnostic}
    (h : d ∈ cyclesDetected index) :
    ∃ first rest, index.SelfFed (first :: rest) ∧ cycleReport? (first :: rest) = some d := by
  obtain ⟨cycle, hcycle, hd⟩ := List.mem_filterMap.1 h
  cases cycle with
  | nil => cases hd
  | cons first rest =>
    exact ⟨first, rest, selfFed_of_mem_searchFrom hi (fun _ h => h) hcycle, hd⟩

end CircuitGraph.Validation
