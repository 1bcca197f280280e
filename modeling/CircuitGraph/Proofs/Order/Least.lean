import CircuitGraph.Graph.Gallery
import CircuitGraph.Proofs.Graph.Path
import CircuitGraph.Proofs.Order.Linear
import CircuitGraph.Proofs.Text.Utf8
import CircuitGraph.Proofs.Validation.Outcome

/-!
# The linear order is the least one

An ordering of a graph is topological when it lists every position once and the source of every
well-formed edge before its target (`Graph.Topological`). On a graph with distinct ids and without
cycles the linear order is topological, and its ids come first among those of all topological
orderings, compared by their bytes (`Graph.LeastOrder`).

The reason is an exchange: whatever another ordering lists first waits for nothing, so it was among
the vertices from which `place` chose the one with the least id (`place_least`).

Degrees are natural numbers, so that taking one from zero would go unnoticed. `place?` is the
algorithm with the check that it never happens, and it does what `place` does on every graph
(`place?_eq_some`).
-/

namespace CircuitGraph

open CircuitGraph.Text

/-! ## Degrees never run out -/

/-- One wire less that arrives at a position, if one does. -/
def Degrees.lower? (degrees : Degrees) (position : Nat) : Option Degrees :=
  if degrees.degreeOf position = 0 then none else some (degrees.lower position)

/-- The degrees after a vertex has been placed, if none of them runs out. -/
def Index.release? (index : Index) (v : Vertex) (degrees : Degrees) : Option Degrees :=
  (index.outgoing v.position).foldlM (fun ds w => ds.lower? w.target.position) degrees

/-- Places vertices like `place`, as long as no degree runs out. -/
def place? (index : Index) (degrees : Degrees) (waiting : List Vertex) :
    Option (List Vertex × List Vertex) :=
  match _h : leastById (waiting.filter fun v => degrees.degreeOf v.position == 0) with
  | none => some ([], waiting)
  | some v => do
    let degrees ← index.release? v degrees
    let (placed, left) ← place? index degrees (waiting.erase v)
    return (v :: placed, left)
termination_by waiting.length
decreasing_by
  have hv := (List.mem_filter.1 (mem_of_leastById _h)).1
  have := List.length_erase_of_mem hv
  have := List.length_pos_of_mem hv
  omega

/-- Degrees that count at least the wires that are taken away do not run out. -/
theorem Degrees.foldlM_lower? (wires : List Wire) (ds : Degrees)
    (h : ∀ p, wires.countP (fun w => w.target.position = p) ≤ ds.degreeOf p) :
    wires.foldlM (fun ds w => ds.lower? w.target.position) ds =
      some (wires.foldl (fun ds w => ds.lower w.target.position) ds) := by
  induction wires generalizing ds with
  | nil => rfl
  | cons w wires ih =>
    have hpos : ds.degreeOf w.target.position ≠ 0 := by
      have hw := h w.target.position
      rw [List.countP_cons_of_pos (by simp)] at hw
      omega
    rw [List.foldlM_cons, lower?, if_neg hpos, List.foldl_cons]
    refine ih _ fun p => ?_
    have hp := h p
    rw [List.countP_cons] at hp
    rw [degreeOf_lower]
    simp only [decide_eq_true_eq] at hp
    omega

/-- Placing a waiting vertex takes away wires that have been counted. -/
theorem Index.Counted.release?_eq_some {index : Index} (hi : index.Sound) {degrees : Degrees}
    {waiting : List Vertex} (h : index.Counted degrees waiting) (hnodup : waiting.Nodup)
    (howners : ∀ u ∈ waiting, u ∈ index.owners) {v : Vertex} (hv : v ∈ waiting) :
    index.release? v degrees = some (index.release v degrees) := by
  refine Degrees.foldlM_lower? _ _ fun p => ?_
  rw [h p, waitingInto_erase hi hnodup howners hv]
  exact Nat.le_add_left _ _

/-- While degrees are counted, none of them runs out. -/
theorem place?_eq_some {index : Index} (hi : index.Sound) {degrees : Degrees}
    {waiting : List Vertex} (hcount : index.Counted degrees waiting) (hnodup : waiting.Nodup)
    (howners : ∀ u ∈ waiting, u ∈ index.owners) :
    place? index degrees waiting = some (place index degrees waiting) := by
  fun_induction place index degrees waiting with
  | case1 degrees waiting h =>
    rw [place?]
    split
    · rfl
    · rename_i v hsome
      rw [h] at hsome
      cases hsome
  | case2 degrees waiting v h placed left heq ih =>
    have hv : v ∈ waiting := (List.mem_filter.1 (mem_of_leastById h)).1
    have hrest := ih (hcount.release hi hnodup howners hv) (hnodup.erase v) fun x hx =>
      howners x (List.mem_of_mem_erase hx)
    rw [place?]
    split
    · rename_i hnone
      rw [h] at hnone
      cases hnone
    · rename_i u hsome
      obtain rfl : v = u := Option.some.inj (h.symm.trans hsome)
      rw [hcount.release?_eq_some hi hnodup howners hv]
      change (place? index _ _).bind _ = _
      rw [hrest, heq]
      rfl

/-! ## The exchange -/

/-- In a list of waiting vertices, whatever arrives at a vertex comes from one before it, or from
one that is not waiting. -/
def Index.Respects (index : Index) (waiting vs : List Vertex) : Prop :=
  ∀ before v after, vs = before ++ v :: after →
    ∀ w ∈ index.incoming v.position, w.source ∈ before ∨ w.source ∉ waiting

/-- Behind the first vertex, the list is one of those that wait without it. -/
theorem Index.Respects.tail {index : Index} {waiting vs : List Vertex} {v : Vertex}
    (h : index.Respects waiting (v :: vs)) (hnodup : waiting.Nodup) :
    index.Respects (waiting.erase v) vs := by
  rintro before u after rfl w hw
  rcases h (v :: before) u after rfl w hw with hbefore | hnot
  · rcases List.mem_cons.1 hbefore with hsource | hbefore
    · exact .inr (hsource ▸ hnodup.not_mem_erase)
    · exact .inl hbefore
  · exact .inr fun hmem => hnot (List.mem_of_mem_erase hmem)

/-- The first vertex of the list waits for nothing. -/
theorem Index.Respects.degreeOf_eq_zero {index : Index} {degrees : Degrees}
    {waiting vs : List Vertex} {v : Vertex} (h : index.Respects waiting (v :: vs))
    (hcount : index.Counted degrees waiting) : degrees.degreeOf v.position = 0 := by
  by_contra hne
  obtain ⟨w, hw, hsource⟩ := hcount.exists_source hne
  rcases h [] v vs rfl w hw with hnil | hnot
  · cases hnil
  · exact hnot hsource

/-- What is placed has the least ids among all such lists of the waiting vertices. -/
theorem place_least {index : Index} (hi : index.Sound) {degrees : Degrees}
    {waiting vs : List Vertex} (hcount : index.Counted degrees waiting)
    (hids : (waiting.map Vertex.id).Nodup) (howners : ∀ u ∈ waiting, u ∈ index.owners)
    (hperm : vs.Perm waiting) (hvs : index.Respects waiting vs) :
    (place index degrees waiting).1 = vs ∨
      List.Lex (· < ·) ((place index degrees waiting).1.map Vertex.id) (vs.map Vertex.id) := by
  fun_induction place index degrees waiting generalizing vs with
  | case1 degrees waiting h =>
    cases vs with
    | nil => exact .inl rfl
    | cons u us =>
      -- the first vertex of the list could have been placed
      have hu : u ∈ waiting.filter fun v => degrees.degreeOf v.position == 0 :=
        List.mem_filter.2 ⟨hperm.subset List.mem_cons_self, by simp [hvs.degreeOf_eq_zero hcount]⟩
      rw [leastById_eq_none h] at hu
      cases hu
  | case2 degrees waiting v h placed left heq ih =>
    rw [heq] at ih
    have hv : v ∈ waiting := (List.mem_filter.1 (mem_of_leastById h)).1
    cases vs with
    | nil => exact absurd (hperm.mem_iff.2 hv) List.not_mem_nil
    | cons u us =>
      have hu : u ∈ waiting := hperm.subset List.mem_cons_self
      have hle : ¬ u.id < v.id := not_id_lt_of_leastById h u
        (List.mem_filter.2 ⟨hu, by simp [hvs.degreeOf_eq_zero hcount]⟩)
      by_cases hlt : v.id < u.id
      · exact .inr (.rel hlt)
      · -- neither id is less, so it is the same vertex, and the rest is compared
        have hid : v.id = u.id := String.le_antisymm (String.not_lt.1 hle) (String.not_lt.1 hlt)
        obtain rfl : v = u := List.inj_on_of_nodup_map hids hv hu hid
        have hnodup : waiting.Nodup := hids.of_map _
        have hrest : us.Perm (waiting.erase v) := by
          have herase := hperm.erase v
          rwa [List.erase_cons_head] at herase
        have hids' : ((waiting.erase v).map Vertex.id).Nodup :=
          hids.sublist (List.erase_sublist.map _)
        have howners' : ∀ x ∈ waiting.erase v, x ∈ index.owners := fun x hx =>
          howners x (List.mem_of_mem_erase hx)
        rcases ih (hcount.release hi hnodup howners hv) hids' howners' hrest (hvs.tail hnodup)
          with hsame | hlex
        · exact .inl (congrArg (v :: ·) hsame)
        · exact .inr (.cons hlex)

/-! ## Orderings of a graph -/

namespace Graph

/-- The vertices at positions, one after the other. -/
def verticesAt (g : Graph) (positions : List Nat) : List Vertex :=
  positions.filterMap fun p => g.nodes[p]?.map (Vertex.mk p)

/-- The ids of the nodes at positions, one after the other. -/
def idsAt (g : Graph) (positions : List Nat) : List String :=
  (g.verticesAt positions).map Vertex.id

/-- An ordering in which the source of every well-formed edge stands before its target. -/
structure Topological (g : Graph) (positions : List Nat) : Prop where
  /-- Every position is listed once. -/
  perm : positions.Perm (List.range g.nodes.length)
  /-- Every well-formed edge points forward. -/
  forward : ∀ e ∈ g.edges, g.isWellFormed e = true → ∀ u ∈ g.vertices, ∀ v ∈ g.vertices,
    u.id = e.source → v.id = e.target →
      positions.idxOf u.position < positions.idxOf v.position

/-- A linear order that comes before every other topological ordering. -/
structure LeastOrder (g : Graph) (order : LinearOrder) : Prop where
  /-- The order is topological. -/
  topological : g.Topological order.positions
  /-- The ids of the order are those of its positions. -/
  ids_eq : order.ids = g.idsAt order.positions
  /-- The ids of any other topological ordering are greater, byte by byte. -/
  least : ∀ positions, g.Topological positions → positions ≠ order.positions →
    order.ids.map utf8 < (g.idsAt positions).map utf8

variable {g : Graph}

/-- The vertices at the positions of vertices are the vertices. -/
theorem verticesAt_map_position {vs : List Vertex} (h : ∀ v ∈ vs, v ∈ g.vertices) :
    g.verticesAt (vs.map Vertex.position) = vs := by
  rw [verticesAt, List.filterMap_map]
  have hsome : ∀ v ∈ vs, ((fun p => g.nodes[p]?.map (Vertex.mk p)) ∘ Vertex.position) v = some v :=
    fun v hv => by simp [mem_vertices_iff.1 (h v hv)]
  rw [List.filterMap_congr hsome, List.filterMap_some]

/-- The positions of the vertices count the nodes. -/
theorem map_position_vertices (g : Graph) :
    g.vertices.map Vertex.position = List.range g.nodes.length := by
  rw [positions_vertices, vertices, List.length_map, List.length_zipIdx]

/-- The vertices at an ordering of all positions are an ordering of all vertices. -/
theorem verticesAt_perm {positions : List Nat}
    (h : positions.Perm (List.range g.nodes.length)) :
    (g.verticesAt positions).Perm g.vertices ∧
      (g.verticesAt positions).map Vertex.position = positions := by
  constructor
  · have hall : g.verticesAt (List.range g.nodes.length) = g.vertices := by
      rw [← g.map_position_vertices, verticesAt_map_position fun _ hv => hv]
    rw [← hall]
    exact h.filterMap _
  · rw [verticesAt, List.map_filterMap]
    have hsome : ∀ p ∈ positions,
        (g.nodes[p]?.map (Vertex.mk p)).map Vertex.position = some p := by
      intro p hp
      have hlt : p < g.nodes.length := List.mem_range.1 (h.subset hp)
      simp [List.getElem?_eq_getElem hlt]
    rw [List.filterMap_congr hsome, List.filterMap_some]

/-- Before the first occurrence of a number are the numbers of the front part. -/
theorem idxOf_lt_idxOf_iff {before after : List Nat} {a b : Nat} (h : b ∉ before) :
    (before ++ b :: after).idxOf a < (before ++ b :: after).idxOf b ↔ a ∈ before := by
  rw [List.idxOf_append_of_notMem h, List.idxOf_cons_self, Nat.add_zero]
  constructor
  · intro hlt
    by_contra hnot
    rw [List.idxOf_append_of_notMem hnot] at hlt
    omega
  · intro hmem
    rw [List.idxOf_append_of_mem hmem]
    exact List.idxOf_lt_length_of_mem hmem

/-- A well-formed edge has a wire. -/
theorem exists_wire_of_isWellFormed {e : Edge} (he : e ∈ g.edges) (h : g.isWellFormed e = true) :
    ∃ w ∈ g.index.wires, w.edge = e := by
  have hmem : e ∈ g.index.wires.map Wire.edge := by
    rw [map_edge_wires]
    exact List.mem_filter.2 ⟨he, h⟩
  exact List.mem_map.1 hmem

/-- The vertices of a topological ordering respect the wires. -/
theorem Topological.respects {positions : List Nat} (h : g.Topological positions)
    (waiting : List Vertex) : g.index.Respects waiting (g.verticesAt positions) := by
  have hi := g.index_sound
  obtain ⟨hperm, hpositions⟩ := verticesAt_perm h.perm
  intro before v after hsplit w hw
  obtain ⟨hwire, htarget⟩ := Index.mem_incoming.1 hw
  have hmem : w.edge ∈ g.edges.filter g.isWellFormed := by
    rw [← map_edge_wires]
    exact List.mem_map_of_mem hwire
  obtain ⟨he, hformed⟩ := List.mem_filter.1 hmem
  obtain ⟨hsource, hsourceId⟩ := owner?_eq_some (hi.source_owner w hwire)
  obtain ⟨htargetMem, htargetId⟩ := owner?_eq_some (hi.target_owner w hwire)
  have hlt := h.forward w.edge he hformed w.source hsource w.target htargetMem hsourceId htargetId
  have hnodup : positions.Nodup := h.perm.nodup_iff.2 List.nodup_range
  rw [hsplit, List.map_append, List.map_cons] at hpositions
  rw [← hpositions, List.nodup_append'] at hnodup
  -- the target stands where the front part ends, so the source stands in it
  rw [← hpositions, htarget, idxOf_lt_idxOf_iff fun hmem => hnodup.2.2 hmem List.mem_cons_self]
    at hlt
  obtain ⟨u, hu, hposition⟩ := List.mem_map.1 hlt
  have hvertex : u ∈ g.vertices := hperm.subset (hsplit ▸ List.mem_append_left _ hu)
  rw [← hi.eq_of_position_eq hvertex hsource hposition]
  exact .inl hu

/-- The linear order of a graph with distinct ids is topological. -/
theorem topological_of_linearize (hids : (g.nodes.map Node.id).Nodup) {order : LinearOrder}
    (h : g.linearize = .ok order) : g.Topological order.positions := by
  have hi := g.index_sound
  obtain ⟨-, hperm, hordered⟩ := Index.linearize_spec hi h
  have hpositions : order.positions.Perm (List.range g.nodes.length) := by
    rw [← g.map_position_vertices]
    exact hperm.map Vertex.position
  refine ⟨hpositions, fun e he hformed u hu v hv hsource htarget => ?_⟩
  obtain ⟨w, hw, rfl⟩ := exists_wire_of_isWellFormed he hformed
  -- ids are distinct, so the wire joins the two vertices
  rw [← map_id_vertices] at hids
  have hends : ∀ x ∈ g.vertices, ∀ y ∈ g.vertices, x.id = y.id → x = y := fun x hx y hy =>
    List.inj_on_of_nodup_map hids hx hy
  obtain ⟨hsourceMem, hsourceId⟩ := owner?_eq_some (hi.source_owner w hw)
  obtain ⟨htargetMem, htargetId⟩ := owner?_eq_some (hi.target_owner w hw)
  obtain rfl := hends u hu w.source hsourceMem (hsource.trans hsourceId.symm)
  obtain rfl := hends v hv w.target htargetMem (htarget.trans htargetId.symm)
  obtain ⟨before, after, hsplit⟩ := List.append_of_mem (hperm.mem_iff.2 htargetMem)
  have hbefore := hordered.sources_before before w.target after hsplit w
    (Index.mem_incoming.2 ⟨hw, rfl⟩)
  have hnodup : order.positions.Nodup := hpositions.nodup_iff.2 List.nodup_range
  rw [LinearOrder.positions, hsplit, List.map_append, List.map_cons] at hnodup ⊢
  rw [List.nodup_append'] at hnodup
  rw [idxOf_lt_idxOf_iff fun hmem => hnodup.2.2 hmem List.mem_cons_self]
  exact List.mem_map_of_mem hbefore

/-- The linear order of a graph with distinct ids comes before every other topological ordering. -/
theorem leastOrder_of_linearize (hids : (g.nodes.map Node.id).Nodup) {order : LinearOrder}
    (h : g.linearize = .ok order) : g.LeastOrder order := by
  have hi := g.index_sound
  have hids' : (g.index.vertices.map Vertex.id).Nodup := g.map_id_vertices ▸ hids
  obtain ⟨-, hperm, -⟩ := Index.linearize_spec hi h
  obtain ⟨-, hplace, -⟩ := Index.linearize_eq_ok_iff.1 h
  have howners : g.index.owners = g.vertices :=
    List.filter_eq_self.2 fun v hv => by simp [Index.not_isShadowed_of_nodup hids' hv]
  refine ⟨topological_of_linearize hids h, ?_, fun positions hpositions hne => ?_⟩
  · rw [idsAt, LinearOrder.positions, verticesAt_map_position fun v hv => hperm.subset hv]
    rfl
  · obtain ⟨hvertices, hmap⟩ := verticesAt_perm hpositions.perm
    have hleast := place_least hi (Index.counted_degrees hi)
      (hids'.sublist (List.filter_sublist.map _)) (fun _ h => h) (howners ▸ hvertices)
      (hpositions.respects _)
    rw [hplace] at hleast
    rcases hleast with hsame | hlex
    · exact absurd (hmap.symm.trans (congrArg _ hsame.symm)) hne
    · exact map_utf8_lt_of_lex hlex

/-- No degree ever runs out, whatever the graph; and a graph with distinct ids and without cycles
has a linear order, which is the least of its topological orderings. -/
theorem linearize_least (g : Graph) :
    place? g.index g.index.degrees g.index.owners =
        some (place g.index g.index.degrees g.index.owners) ∧
      ((g.nodes.map Node.id).Nodup → g.Acyclic →
        ∃ order, g.linearize = .ok order ∧ g.LeastOrder order) := by
  have hi := g.index_sound
  refine ⟨place?_eq_some hi (Index.counted_degrees hi) (hi.nodup_vertices.filter _) fun _ h => h,
    fun hids hac => ?_⟩
  have hids' : (g.index.vertices.map Vertex.id).Nodup := g.map_id_vertices ▸ hids
  obtain ⟨order, horder⟩ := Index.exists_linearize hi (acyclic_iff.2 hac) fun v hv =>
    Index.not_isShadowed_of_nodup hids' hv
  exact ⟨order, horder, leastOrder_of_linearize hids horder⟩

/-- A square, with an edge from nowhere. -/
def square : Graph where
  nodes :=
    [Exhibit.output "root" .number "Root", Exhibit.operation "square" .multiply,
     Exhibit.secret "side" "Side"]
  edges :=
    [Graph.wire "side" "square" "a", Graph.wire "nowhere" "square" "a",
     Graph.wire "side" "square" "b", Graph.wire "square" "root" "in"]

/-- The square has two parallel edges and a faulty one, and it is ordered against the order in which
its nodes are listed. -/
theorem linearize_least_square :
    (square.nodes.map Node.id).Nodup ∧ square.Acyclic ∧
      ∃ order, square.linearize = .ok order ∧ square.LeastOrder order := by
  have hids : (square.nodes.map Node.id).Nodup := by decide
  have hcycles : Validation.cyclesDetected square.index = [] := by cbv
  have hac : square.Acyclic :=
    acyclic_iff.1 (Validation.acyclic_of_cyclesDetected square.index_sound hcycles)
  exact ⟨hids, hac, (linearize_least square).2 hids hac⟩

end Graph

end CircuitGraph
