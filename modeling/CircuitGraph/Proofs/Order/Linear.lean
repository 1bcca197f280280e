import CircuitGraph.Order.Linear
import CircuitGraph.Proofs.Graph.Reach
import Mathlib.Data.Fintype.Card
import Mathlib.Data.Set.Finite.Basic
import Mathlib.Order.WellFounded

/-!
# The linear order respects the wires

`place` keeps, for each position, the number of wires that arrive there from waiting vertices
(`Counted`). So a vertex is placed only when none of its wires comes from a waiting vertex, and the
sources of all its wires have been placed before it (`place_sources_before`). When nothing can be
placed any more, every vertex left behind has a wire from another one left behind; without a cycle
that is impossible, so none is left (`place_left_eq_nil`).

`Index.Orders` is what the later stages rely on in an order: every wire that arrives at a listed
vertex comes from one listed before. `linearize` gives such an order, and pruning keeps it.
-/

namespace CircuitGraph

/-- A list of owners without repetition in which the source of every wire into a vertex stands
before the vertex. -/
structure Index.Orders (index : Index) (vs : List Vertex) : Prop where
  /-- No vertex is repeated. -/
  nodup : vs.Nodup
  /-- Every vertex owns its id. -/
  owners : ∀ v ∈ vs, v ∈ index.owners
  /-- What arrives at a vertex comes from a vertex before it. -/
  sources_before : ∀ before v after, vs = before ++ v :: after →
    ∀ w ∈ index.incoming v.position, w.source ∈ before

/-- The vertices before the last one of an order are in order. -/
theorem Index.Orders.init {index : Index} {vs : List Vertex} {v : Vertex}
    (h : index.Orders (vs ++ [v])) : index.Orders vs where
  nodup := (List.nodup_append.1 h.nodup).1
  owners u hu := h.owners u (List.mem_append_left _ hu)
  sources_before before u after heq :=
    h.sources_before before u (after ++ [v]) (by rw [heq]; simp)

/-- When vertices are known by their ids, no node stands twice in an order. -/
theorem Index.Orders.nodup_nodes {index : Index} {vs : List Vertex} (h : index.Orders vs)
    (hids : ∀ v ∈ index.vertices, ∀ u ∈ index.vertices, v.id = u.id → v = u) :
    (vs.map Vertex.node).Nodup :=
  h.nodup.map_on fun v hv u hu hnode =>
    hids v (mem_vertices_of_mem_owners (h.owners v hv)) u
      (mem_vertices_of_mem_owners (h.owners u hu)) (congrArg Node.id hnode)

/-! ## Degrees -/

namespace Degrees

/-- Raising a degree adds one at its position. -/
theorem degreeOf_raise (ds : Degrees) {p : Nat} (hp : p < ds.size) (q : Nat) :
    (ds.raise p).degreeOf q = ds.degreeOf q + if p = q then 1 else 0 := by
  simp only [degreeOf, raise, Array.getD_eq_getD_getElem?, Array.getElem?_modify]
  split
  · rename_i h
    subst h
    simp [hp]
  · rfl

/-- Lowering a degree takes one away at its position. -/
theorem degreeOf_lower (ds : Degrees) (p q : Nat) :
    (ds.lower p).degreeOf q = ds.degreeOf q - if p = q then 1 else 0 := by
  simp only [degreeOf, lower, Array.getD_eq_getD_getElem?, Array.getElem?_modify]
  split
  · cases ds[q]? <;> rfl
  · rfl

/-- Raising degrees one after the other adds to each as often as its position occurs. -/
theorem degreeOf_foldl_raise (wires : List Wire) (ds : Degrees) (q : Nat)
    (hw : ∀ w ∈ wires, w.target.position < ds.size) :
    (wires.foldl (fun ds w => ds.raise w.target.position) ds).degreeOf q =
      ds.degreeOf q + wires.countP fun w => w.target.position = q := by
  induction wires generalizing ds with
  | nil => rfl
  | cons w wires ih =>
    rw [List.foldl_cons, ih, degreeOf_raise ds (hw w List.mem_cons_self), List.countP_cons]
    · simp only [decide_eq_true_eq]
      omega
    · intro u hu
      rw [raise, Array.size_modify]
      exact hw u (List.mem_cons_of_mem _ hu)

/-- Lowering degrees one after the other takes away from each as often as its position occurs. -/
theorem degreeOf_foldl_lower (wires : List Wire) (ds : Degrees) (q : Nat) :
    (wires.foldl (fun ds w => ds.lower w.target.position) ds).degreeOf q =
      ds.degreeOf q - wires.countP fun w => w.target.position = q := by
  induction wires generalizing ds with
  | nil => rfl
  | cons w wires ih =>
    rw [List.foldl_cons, ih, degreeOf_lower, List.countP_cons]
    simp only [decide_eq_true_eq]
    omega

end Degrees

namespace Index

/-- The number of wires that arrive at a position from waiting vertices. -/
def waitingInto (index : Index) (waiting : List Vertex) (p : Nat) : Nat :=
  index.wires.countP fun w => w.target.position = p ∧ w.source ∈ waiting

/-- The degrees count the wires that arrive from waiting vertices. -/
def Counted (index : Index) (degrees : Degrees) (waiting : List Vertex) : Prop :=
  ∀ p, degrees.degreeOf p = index.waitingInto waiting p

variable {index : Index}

/-- At first every owner is waiting, and the degrees count all wires. -/
theorem counted_degrees (hi : index.Sound) : index.Counted index.degrees index.owners := by
  intro p
  have hsize : ∀ w ∈ index.wires,
      w.target.position < (Array.replicate index.vertices.length 0 : Degrees).size := by
    intro w hw
    rw [Array.size_replicate]
    exact hi.position_lt (mem_vertices_of_mem_owners (hi.target_mem_owners hw))
  have hzero : Degrees.degreeOf (Array.replicate index.vertices.length 0) p = 0 := by
    rw [Degrees.degreeOf, Array.getD_eq_getD_getElem?, Array.getElem?_replicate]
    split <;> rfl
  rw [degrees, Degrees.degreeOf_foldl_raise _ _ _ hsize, hzero, Nat.zero_add, waitingInto]
  refine List.countP_congr fun w hw => ?_
  have hsource := hi.source_mem_owners hw
  simp [hsource]

/-- The wires from waiting vertices are those from one of them and those from the others. -/
theorem waitingInto_erase (hi : index.Sound) {waiting : List Vertex} (hnodup : waiting.Nodup)
    (howners : ∀ u ∈ waiting, u ∈ index.owners) {v : Vertex} (hv : v ∈ waiting) (p : Nat) :
    index.waitingInto waiting p = index.waitingInto (waiting.erase v) p +
      (index.outgoing v.position).countP fun w => w.target.position = p := by
  rw [waitingInto, waitingInto, outgoing, List.countP_filter]
  have hsource : ∀ w ∈ index.wires, w.source.position = v.position → w.source = v := by
    intro w hw h
    exact hi.eq_of_position_eq (mem_vertices_of_mem_owners (hi.source_mem_owners hw))
      (mem_vertices_of_mem_owners (howners v hv)) h
  -- a statement about any list of wires, for the induction; only the hypothesis on sources is kept
  revert hsource
  induction index.wires with
  | nil => intro _; rfl
  | cons w wires ih =>
    intro hsource
    rw [List.countP_cons, List.countP_cons, List.countP_cons,
      ih fun u hu => hsource u (List.mem_cons_of_mem _ hu)]
    have hw := hsource w List.mem_cons_self
    have herase := hnodup.mem_erase_iff (a := v) (b := w.source)
    -- only wires into the position count; those that leave the erased vertex are the difference
    by_cases hp : w.target.position = p
    · by_cases hpos : w.source.position = v.position
      · have := hw hpos
        simp_all
        omega
      · have hne : w.source ≠ v := fun h => hpos (h ▸ rfl)
        simp_all
        omega
    · simp [hp]

/-- Placing a waiting vertex keeps the degrees counted. -/
theorem Counted.release (hi : index.Sound) {degrees : Degrees} {waiting : List Vertex}
    (h : index.Counted degrees waiting) (hnodup : waiting.Nodup)
    (howners : ∀ u ∈ waiting, u ∈ index.owners) {v : Vertex} (hv : v ∈ waiting) :
    index.Counted (index.release v degrees) (waiting.erase v) := by
  intro p
  rw [Index.release, Degrees.degreeOf_foldl_lower, h p, waitingInto_erase hi hnodup howners hv]
  omega

/-- A vertex of degree zero has no wire from a waiting vertex. -/
theorem Counted.source_not_mem {degrees : Degrees} {waiting : List Vertex}
    (h : index.Counted degrees waiting) {v : Vertex} (hv : degrees.degreeOf v.position = 0)
    {w : Wire} (hw : w ∈ index.incoming v.position) : w.source ∉ waiting := by
  rw [h, waitingInto, List.countP_eq_zero] at hv
  obtain ⟨hmem, hp⟩ := mem_incoming.1 hw
  simpa [hp] using hv w hmem

/-- A vertex of another degree has a wire from a waiting vertex. -/
theorem Counted.exists_source {degrees : Degrees} {waiting : List Vertex}
    (h : index.Counted degrees waiting) {v : Vertex} (hv : degrees.degreeOf v.position ≠ 0) :
    ∃ w ∈ index.incoming v.position, w.source ∈ waiting := by
  rw [h, waitingInto, ← Nat.pos_iff_ne_zero, List.countP_pos_iff] at hv
  obtain ⟨w, hmem, hp⟩ := hv
  rw [decide_eq_true_eq] at hp
  exact ⟨w, mem_incoming.2 ⟨hmem, hp.1⟩, hp.2⟩

end Index

/-! ## Placing -/

variable {index : Index}

/-- A vertex is found in every list that has one. -/
theorem leastById_eq_none {vs : List Vertex} (h : leastById vs = none) : vs = [] := by
  cases vs with
  | nil => rfl
  | cons v vs =>
    unfold leastById at h
    split at h
    · split at h <;> cases h
    · cases h

/-- No vertex has a lesser id than the least one. -/
theorem not_id_lt_of_leastById {vs : List Vertex} {v : Vertex} (h : leastById vs = some v) :
    ∀ u ∈ vs, ¬ u.id < v.id := by
  induction vs generalizing v with
  | nil => cases h
  | cons w ws ih =>
    unfold leastById at h
    split at h
    · rename_i least hleast
      have hrest := ih hleast
      split at h
      · rename_i hlt
        cases h
        exact List.forall_mem_cons.2 ⟨String.lt_asymm hlt, hrest⟩
      · rename_i hle
        cases h
        refine List.forall_mem_cons.2 ⟨String.lt_irrefl _, fun u hu => ?_⟩
        exact String.not_lt.2
          (String.le_trans (String.not_lt.1 hle) (String.not_lt.1 (hrest u hu)))
    · rename_i hnone
      cases h
      rw [leastById_eq_none hnone]
      exact List.forall_mem_singleton.2 (String.lt_irrefl _)

/-- Placing neither loses nor repeats a vertex. -/
theorem place_perm (index : Index) (degrees : Degrees) (waiting : List Vertex) :
    ((place index degrees waiting).1 ++ (place index degrees waiting).2).Perm waiting := by
  fun_induction place index degrees waiting with
  | case1 degrees waiting h => exact .refl _
  | case2 degrees waiting v h placed left heq ih =>
    rw [heq] at ih
    have hv : v ∈ waiting := (List.mem_filter.1 (mem_of_leastById h)).1
    exact (ih.cons v).trans (List.perm_cons_erase hv).symm

/-- Whatever arrives at a placed vertex comes from a vertex that was placed before it, or was not
waiting at all. -/
theorem place_sources_before (hi : index.Sound) {degrees : Degrees} {waiting : List Vertex}
    (hcount : index.Counted degrees waiting) (hnodup : waiting.Nodup)
    (howners : ∀ u ∈ waiting, u ∈ index.owners) {before after : List Vertex} {v : Vertex}
    (hplaced : (place index degrees waiting).1 = before ++ v :: after) {w : Wire}
    (hw : w ∈ index.incoming v.position) : w.source ∈ before ∨ w.source ∉ waiting := by
  fun_induction place index degrees waiting generalizing before with
  | case1 degrees waiting h => simp at hplaced
  | case2 degrees waiting u h placed left heq ih =>
    rw [heq] at ih
    obtain ⟨hu, hready⟩ := List.mem_filter.1 (mem_of_leastById h)
    cases before with
    | nil =>
      -- the vertex itself is placed first: its degree is zero, so nothing waits in front of it
      obtain ⟨rfl, -⟩ := List.cons.inj hplaced
      exact .inr (hcount.source_not_mem (by simpa using hready) hw)
    | cons b before =>
      obtain ⟨rfl, hrest⟩ := List.cons.inj hplaced
      have herase : ∀ x ∈ waiting.erase u, x ∈ index.owners := fun x hx =>
        howners x (List.mem_of_mem_erase hx)
      -- a source that is no longer waiting has been placed before, or it is the vertex just placed
      rcases ih (hcount.release hi hnodup howners hu) (hnodup.erase u) herase hrest with hb | hb
      · exact .inl (List.mem_cons_of_mem _ hb)
      · by_cases hsource : w.source = u
        · exact .inl (hsource ▸ List.mem_cons_self)
        · exact .inr fun hx => hb ((List.mem_erase_of_ne hsource).2 hx)

/-- Every vertex left behind waits for another one left behind. -/
theorem exists_source_of_mem_left (hi : index.Sound) {degrees : Degrees} {waiting : List Vertex}
    (hcount : index.Counted degrees waiting) (hnodup : waiting.Nodup)
    (howners : ∀ u ∈ waiting, u ∈ index.owners) {v : Vertex}
    (hv : v ∈ (place index degrees waiting).2) :
    ∃ w ∈ index.incoming v.position, w.source ∈ (place index degrees waiting).2 := by
  fun_induction place index degrees waiting with
  | case1 degrees waiting h =>
    -- a degree of zero would have made the vertex one to choose from
    refine hcount.exists_source fun hzero => ?_
    have hmem : v ∈ waiting.filter fun v => degrees.degreeOf v.position == 0 :=
      List.mem_filter.2 ⟨hv, by simpa using hzero⟩
    rw [leastById_eq_none h] at hmem
    cases hmem
  | case2 degrees waiting u h placed left heq ih =>
    rw [heq] at ih
    have hu : u ∈ waiting := (List.mem_filter.1 (mem_of_leastById h)).1
    exact ih (hcount.release hi hnodup howners hu) (hnodup.erase u)
      (fun x hx => howners x (List.mem_of_mem_erase hx)) hv

/-- What feeds itself is never placed. -/
theorem Index.SelfFed.not_mem_placed (hi : index.Sound) {vs : List Vertex} (h : index.SelfFed vs)
    {v : Vertex} (hv : v ∈ vs) : v ∉ (place index index.degrees index.owners).1 := by
  -- by induction on what has been placed before: nothing of the list has, so nothing can be next
  have hprefix : ∀ before after,
      (place index index.degrees index.owners).1 = before ++ after → ∀ u ∈ before, u ∉ vs := by
    intro before
    induction before using List.reverseRecOn with
    | nil => simp
    | append_singleton before u ih =>
      intro after hplaced
      rw [List.append_assoc] at hplaced
      have hnot := ih _ hplaced
      have hu : u ∉ vs := by
        intro hu
        obtain ⟨-, w, hw, hsource⟩ := h u hu
        rcases place_sources_before hi (counted_degrees hi) (hi.nodup_vertices.filter _)
          (fun _ h => h) hplaced hw with hbefore | howner
        · exact hnot _ hbefore hsource
        · exact howner (h _ hsource).1
      intro x hx
      rcases List.mem_append.1 hx with hx | hx
      · exact hnot x hx
      · rwa [List.mem_singleton.1 hx]
  exact fun hplaced => hprefix _ [] (List.append_nil _).symm v hplaced hv

/-- What feeds itself is left behind. -/
theorem Index.SelfFed.mem_left (hi : index.Sound) {vs : List Vertex} (h : index.SelfFed vs)
    {v : Vertex} (hv : v ∈ vs) : v ∈ (place index index.degrees index.owners).2 := by
  have hmem := (place_perm index index.degrees index.owners).mem_iff.2 (h v hv).1
  exact (List.mem_append.1 hmem).resolve_left (h.not_mem_placed hi hv)

/-- Among finitely many vertices each of which has a wire from one of them, some vertex lies on a
cycle. -/
theorem Index.exists_cycle_of_sources {vs : List Vertex} (hne : vs ≠ [])
    (h : ∀ v ∈ vs, ∃ w ∈ index.incoming v.position, w.source ∈ vs) :
    ∃ v ∈ vs, Relation.TransGen index.Leads v.position v.position := by
  by_contra hno
  push Not at hno
  obtain ⟨v, hv⟩ := List.exists_mem_of_ne_nil vs hne
  -- a transitive relation without cycles on finitely many positions has a minimal element
  let S := { p : Nat // p ∈ vs.map Vertex.position }
  have : Finite S := (vs.map Vertex.position).finite_toSet.to_subtype
  let r : S → S → Prop := fun a b => Relation.TransGen index.Leads a.1 b.1
  have htrans : IsTrans S r := ⟨fun _ _ _ => Relation.TransGen.trans⟩
  have hirrefl : Std.Irrefl r := by
    refine ⟨fun a hloop => ?_⟩
    obtain ⟨u, hu, hua⟩ := List.mem_map.1 a.2
    exact hno u hu (hua ▸ hloop)
  have hwf : WellFounded r := Finite.wellFounded_of_trans_of_irrefl r
  obtain ⟨m, -, hmin⟩ := hwf.has_min Set.univ ⟨⟨v.position, List.mem_map_of_mem hv⟩, trivial⟩
  obtain ⟨u, hu, hum⟩ := List.mem_map.1 m.2
  obtain ⟨w, hw, hsource⟩ := h u hu
  obtain ⟨hmem, htarget⟩ := Index.mem_incoming.1 hw
  -- the source of its wire lies below it
  refine hmin ⟨w.source.position, List.mem_map_of_mem hsource⟩ trivial ?_
  exact .single ⟨w, hmem, rfl, htarget.trans hum⟩

/-- On a finite set of positions without a cycle, not every one can have a predecessor in the
set. -/
theorem Index.Acyclic.eq_nil_of_sources (hac : index.Acyclic) {vs : List Vertex}
    (h : ∀ v ∈ vs, ∃ w ∈ index.incoming v.position, w.source ∈ vs) : vs = [] := by
  by_contra hne
  obtain ⟨v, -, hloop⟩ := Index.exists_cycle_of_sources hne h
  exact hac v.position hloop

/-- Without a cycle no vertex is left behind. -/
theorem place_left_eq_nil (hi : index.Sound) (hac : index.Acyclic) :
    (place index index.degrees index.owners).2 = [] :=
  hac.eq_nil_of_sources fun _ hv =>
    exists_source_of_mem_left hi (Index.counted_degrees hi) (hi.nodup_vertices.filter _)
      (fun _ h => h) hv

/-! ## The order of a graph -/

/-- The linear order of a graph is what is placed, when no vertex is shadowed and none is left
behind. -/
theorem Index.linearize_eq_ok_iff {order : LinearOrder} :
    index.linearize = .ok order ↔ index.vertices.find? index.isShadowed = none ∧
      place index index.degrees index.owners = (order.vertices, []) ∧ order.index = index := by
  obtain ⟨own, vertices⟩ := order
  unfold Index.linearize
  -- the match is on the pair of what is placed and what is left
  generalize place index index.degrees index.owners = result
  obtain ⟨placed, left⟩ := result
  cases index.vertices.find? index.isShadowed with
  | some v => simp
  | none =>
    cases left with
    | nil => simp [and_comm, eq_comm]
    | cons v left => simp

/-- A graph has a linear order when no vertex is shadowed and none is left behind. -/
theorem Index.exists_linearize_iff :
    (∃ order, index.linearize = .ok order) ↔
      index.vertices.find? index.isShadowed = none ∧
        (place index index.degrees index.owners).2 = [] := by
  simp only [Index.linearize_eq_ok_iff]
  constructor
  · rintro ⟨order, hnone, hplace, -⟩
    exact ⟨hnone, by rw [hplace]⟩
  · rintro ⟨hnone, hleft⟩
    exact ⟨⟨index, _⟩, hnone, by rw [← hleft], rfl⟩

/-- A graph without shared ids and cycles has a linear order. -/
theorem Index.exists_linearize (hi : index.Sound) (hac : index.Acyclic)
    (hunique : ∀ v ∈ index.vertices, index.isShadowed v = false) :
    ∃ order, index.linearize = .ok order := by
  refine Index.exists_linearize_iff.2 ⟨?_, place_left_eq_nil hi hac⟩
  rw [List.find?_eq_none]
  intro v hv
  simp [hunique v hv]

/-- The linear order of a graph lists the owners of its ids. -/
theorem Index.perm_owners_of_linearize {order : LinearOrder} (h : index.linearize = .ok order) :
    order.vertices.Perm index.owners := by
  obtain ⟨-, hplace, rfl⟩ := Index.linearize_eq_ok_iff.1 h
  have hperm := place_perm order.index order.index.degrees order.index.owners
  rwa [hplace, List.append_nil] at hperm

/-- The linear order of a graph lists its vertices, each once, and respects the wires. -/
theorem Index.linearize_spec (hi : index.Sound) {order : LinearOrder}
    (h : index.linearize = .ok order) :
    order.index = index ∧ order.vertices.Perm index.vertices ∧ index.Orders order.vertices := by
  have hperm := Index.perm_owners_of_linearize h
  obtain ⟨hnone, hplace, rfl⟩ := Index.linearize_eq_ok_iff.1 h
  -- no vertex is shadowed, so the owners are all vertices
  have hall : order.index.owners = order.index.vertices := by
    refine List.filter_eq_self.2 fun v hv => ?_
    simpa using List.find?_eq_none.1 hnone v hv
  refine ⟨rfl, hall ▸ hperm, hperm.nodup_iff.2 (hi.nodup_vertices.filter _),
    fun v hv => hperm.subset hv, ?_⟩
  intro before v after hplaced w hw
  have hsource := place_sources_before hi (counted_degrees hi) (hi.nodup_vertices.filter _)
    (fun _ h => h) (by rw [hplace]; exact hplaced) hw
  -- every owner was waiting at first, so the second case does not occur
  exact hsource.resolve_right fun hno =>
    hno (hi.source_mem_owners (Index.mem_incoming.1 hw).1)

/-- Dropping the vertices that feed no output keeps an order. -/
theorem Index.Orders.pruned (hi : index.Sound) {vs : List Vertex} (h : index.Orders vs) :
    index.Orders (vs.filter fun v => index.useful.contains v.position) where
  nodup := h.nodup.filter _
  owners v hv := h.owners v (List.mem_filter.1 hv).1
  sources_before := by
    intro before v after hfilter w hw
    obtain ⟨b, rest, rfl, rfl, hrest⟩ := List.filter_eq_append_iff.1 hfilter
    obtain ⟨c, d, rfl, hc, hv, rfl⟩ := List.filter_eq_cons_iff.1 hrest
    have hsource : w.source ∈ b ++ c := h.sources_before (b ++ c) v d (by simp) w hw
    obtain ⟨hmem, htarget⟩ := Index.mem_incoming.1 hw
    -- what feeds a useful vertex is useful, so the source is not dropped
    have huseful : w.source.position ∈ index.useful :=
      hi.source_mem_useful hmem (by rw [htarget]; simpa using hv)
    rcases List.mem_append.1 hsource with hb | hc'
    · exact List.mem_filter.2 ⟨hb, by simpa using huseful⟩
    · exact absurd (by simpa using huseful) (hc _ hc')

end CircuitGraph
